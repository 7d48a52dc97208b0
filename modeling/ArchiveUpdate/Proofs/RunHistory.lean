import ArchiveUpdate.Proofs.RunWindow

/-!
# Runs while everything around them changes

Between two requests of an engine not only the world with its files and lent streams may become
another: the stored archive may be damaged or repaired, and the reporter may change its mind.
`Session.Run` is a run in such surroundings, with every request and the state that it met.  A course
of events is one (`run_after`), and the requests and answers of a run decide how far it has come as
they do in a course (`standing_of_run`).
-/

set_option autoImplicit false

namespace ArchiveUpdate

/-- A request and the state of the run that it met. -/
structure Moment (α ρ : Type) where
  state : Session α ρ
  request : Request

variable {α ρ : Type} [Archive α] [Reporter ρ]

/-- The request with the answer that it got. -/
def Moment.exchange (m : Moment α ρ) : Exchange := ⟨m.request, (m.state.answer m.request).1⟩

namespace Session

omit [Archive α] [Reporter ρ] in
/-- The run after its surroundings have changed; what became of the reporter depends on what it
was. -/
def drift (s : Session α ρ) (archive : α) (h : Host) (react : ρ → ρ) : Session α ρ :=
  { s with archive, host := h, reporter := s.reporter.map react }

/-- These moments lead from one state to another. -/
inductive Run (s : Session α ρ) : List (Moment α ρ) → Session α ρ → Prop
  | begin : s.Run [] s
  | drift {moments : List (Moment α ρ)} {now : Session α ρ} (archive : α) (h : Host)
      (react : ρ → ρ) : s.Run moments now → s.Run moments (now.drift archive h react)
  | ask {moments : List (Moment α ρ)} {now : Session α ρ} (q : Request) :
      s.Run moments now → s.Run (moments ++ [⟨now, q⟩]) (now.answer q).2

section

variable {s now : Session α ρ} {moments : List (Moment α ρ)}

/-- A course of events is a run in which the archive and the reporter change only as the run makes
them. -/
theorem run_after (s : Session α ρ) (course : List RunEvent) :
    ∃ moments, s.Run moments (s.after course) ∧
      moments.map Moment.exchange = s.exchanges course := by
  induction course using List.reverseRecOn with
  | nil => exact ⟨[], .begin, rfl⟩
  | append_singleton course event ih =>
    obtain ⟨moments, hrun, hlog⟩ := ih
    rw [after_concat, exchanges_append]
    cases event with
    | ask q =>
      refine ⟨moments ++ [⟨s.after course, q⟩], hrun.ask q, ?_⟩
      rw [List.map_append, hlog]
      rfl
    | world h =>
      have hsame : (s.after course).drift (s.after course).archive h id =
          (s.after course).step (.world h) := by
        simp [Session.drift, step]
      refine ⟨moments, ?_, ?_⟩
      · rw [← hsame]
        exact hrun.drift _ h id
      · rw [hlog]
        exact (List.append_nil _).symm

/-- The state that a request met was led to by earlier moments. -/
theorem run_of_mem {m : Moment α ρ} (hrun : s.Run moments now) (hm : m ∈ moments) :
    ∃ earlier, s.Run earlier m.state := by
  induction hrun with
  | begin => cases hm
  | drift archive h react _ ih => exact ih hm
  | @ask moments now q hbefore ih =>
    rcases List.mem_append.1 hm with hm | hm
    · exact ih hm
    · obtain rfl := List.mem_singleton.1 hm
      exact ⟨moments, hbefore⟩

/-- No run changes its new items or its marks. -/
theorem items_of_run (hrun : s.Run moments now) :
    now.items = s.items ∧ now.deletions = s.deletions := by
  induction hrun with
  | begin => exact ⟨rfl, rfl⟩
  | drift archive h react _ ih => exact ih
  | @ask moments now q _ ih =>
    have hstep := items_step now (.ask q)
    exact ⟨hstep.1.trans ih.1, hstep.2.trans ih.2⟩

/-- No run changes the number of items in the finished archive. -/
theorem total_of_run (hrun : s.Run moments now) : now.total = s.total := by
  obtain ⟨hitems, hmarks⟩ := items_of_run hrun
  rw [total, total, hitems, hmarks]

/-- A run stands as its exchanges say. -/
theorem standing_of_run (hs : s.Standing []) (hrun : s.Run moments now) :
    now.Standing (moments.map Moment.exchange) := by
  induction hrun with
  | begin => exact hs
  | drift archive h react _ ih => exact ⟨ih.phase, ih.outcome, ih.once, ih.fits⟩
  | @ask moments now q _ ih =>
    rw [List.map_append]
    exact ih.step (.ask q)

omit [Archive α] [Reporter ρ] in
/-- Between a count and the outcome the items are no more than an archive can have. -/
theorem Standing.fits_of_active {log : List Exchange} (hs : s.Standing log)
    (hactive : s.phase = .active) : s.total ≤ maxItems := by
  rw [hs.phase, phaseOf_eq_active_iff] at hactive
  exact hs.fits (List.any_eq_true.2 hactive.1)

/-- A run is active exactly while questions about items are answered, and then its items fit into
one archive. -/
theorem active_of_run {archive : α} {h : Host} {items : List NewItem} {deletions : Deletions}
    {reporter : Option ρ} (hs : Session.start archive h items deletions reporter = .ok s)
    (hrun : s.Run moments now) :
    (now.phase = .active ↔
      Counted (moments.map Moment.exchange) ∧ ¬Ended (moments.map Moment.exchange)) ∧
    (now.phase = .active → now.total ≤ maxItems) := by
  have hstanding : now.Standing (moments.map Moment.exchange) :=
    standing_of_run (standing_start hs) hrun
  refine ⟨?_, hstanding.fits_of_active⟩
  rw [hstanding.phase]
  exact phaseOf_eq_active_iff

end

end Session

end ArchiveUpdate
