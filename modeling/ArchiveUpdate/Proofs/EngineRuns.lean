import ArchiveUpdate.Proofs.ChangeOutcome
import ArchiveUpdate.Proofs.RunWindow

/-!
# The requests of an engine

An engine chooses each request by the answers to the earlier ones.  `Engine.exchanges` is what it
asks of a run and what it is answered.  Whatever it chooses is a course of events
(`run_is_course`), so that all that holds of courses holds of engines.

Runs begin all through the life of an updater (`start_of_life`), and what a run that begins comes to
is the engine's own failure or the conclusion from the session that the engine leaves behind
(`result_of_start`).
-/

set_option autoImplicit false

namespace ArchiveUpdate

namespace Session

variable {α ρ : Type} [Archive α] [Reporter ρ]

/-- A request among the exchanges of a course was met by the state that the earlier ones led to. -/
theorem reply_of_split {s : Session α ρ} {course : List RunEvent} {q : Request} {r : q.Reply}
    {before later : List Exchange} (h : s.exchanges course = before ++ ⟨q, r⟩ :: later) :
    ∃ earlier, s.exchanges earlier = before ∧ r = ((s.after earlier).answer q).1 := by
  induction course generalizing s before with
  | nil =>
    have hempty : before ++ ⟨q, r⟩ :: later = [] := h.symm
    simp at hempty
  | cons event course ih =>
    cases event with
    | world h' =>
      obtain ⟨earlier, hbefore, hr⟩ := ih h
      exact ⟨.world h' :: earlier, hbefore, hr⟩
    | ask q' =>
      cases before with
      | nil =>
        injection h with hfirst _
        cases hfirst
        exact ⟨[], rfl, rfl⟩
      | cons first before =>
        injection h with hfirst hrest
        obtain ⟨earlier, hbefore, hr⟩ := ih hrest
        refine ⟨.ask q' :: earlier, ?_, hr⟩
        rw [← hfirst, ← hbefore]
        rfl

end Session

namespace Engine

variable {α ρ β : Type} [Archive α] [Reporter ρ]

/-- What an engine asks of a run, with the answers. -/
def exchanges : Engine β → Session α ρ → List Exchange
  | done _, _ => []
  | ask q next, s => ⟨q, (s.answer q).1⟩ :: (next (s.answer q).1).exchanges (s.answer q).2

/-- What an engine does to a run is a course of requests, with the same exchanges. -/
theorem run_is_course (engine : Engine β) (s : Session α ρ) :
    ∃ course, (engine.run s).2 = s.after course ∧ engine.exchanges s = s.exchanges course := by
  induction engine generalizing s with
  | done result => exact ⟨[], rfl, rfl⟩
  | ask q next ih =>
    obtain ⟨course, hafter, hlog⟩ := ih (s.answer q).1 (s.answer q).2
    refine ⟨.ask q :: course, ?_, ?_⟩
    · show ((next (s.answer q).1).run (s.answer q).2).2 = (s.answer q).2.after course
      exact hafter
    · show _ :: (next (s.answer q).1).exchanges (s.answer q).2 =
        _ :: (s.answer q).2.exchanges course
      rw [hlog]

end Engine

namespace Updater

variable {α ρ β : Type} [Archive α] [Reporter ρ]

/-- An updater that has come about by calls and runs can be run, if opening items does not change
their number. -/
theorem start_of_life (hconst : ∀ (a : α) i,
    Archive.itemCount (Archive.openItem a i).2 = Archive.itemCount a) {u : Updater α ρ}
    (hu : Life u) (h : Host) :
    ∃ s, Session.start u.archive h u.items u.runDeletions u.options.reporter = .ok s := by
  have hcount : u.runDeletions.count = Archive.itemCount u.archive := by
    rw [(extends_runDeletions u).count]
    exact count_of_life hconst hu
  exact ⟨_, Session.start_eq_ok_iff.2 ⟨hcount, rfl⟩⟩

/-- Once a run has begun, its result is the engine's failure or what its report comes to. -/
theorem result_of_start {u : Updater α ρ} {h : Host} {s : Session α ρ}
    (hs : Session.start u.archive h u.items u.runDeletions u.options.reporter = .ok s)
    (engine : Engine (Except UpdateError Unit × β)) :
    (u.compress h engine).result = (engine.run s).1.1.bind fun _ =>
      conclude u.runDeletions u.items (engine.run s).2.report := by
  have hreport : (engine.run s).2.release.report = (engine.run s).2.report := by
    obtain ⟨h', reading, heq⟩ := (engine.run s).2.release_eq
    rw [heq]
    rfl
  simp only [compress, hs]
  rw [hreport]

omit [Archive α] [Reporter ρ] in
/-- A run that is concluded with success reports the marks that it began with and, in a word, the
number of new items. -/
theorem conclude_eq_ok {deletions : Deletions} {items : List NewItem} {report : RunReport}
    {summary : RunSummary} (h : conclude deletions items report = .ok summary) :
    summary.kept = deletions.kept ∧ summary.deleted = deletions.size ∧
      summary.added = word32 items.length := by
  unfold conclude at h
  split at h
  · cases h
  · cases h
  · cases h
  · cases h
    exact ⟨rfl, rfl, rfl⟩
  · cases h
    exact ⟨rfl, rfl, rfl⟩

end Updater

end ArchiveUpdate
