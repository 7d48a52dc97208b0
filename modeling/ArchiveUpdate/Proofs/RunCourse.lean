import ArchiveUpdate.Proofs.RunSteps
import Mathlib.Data.List.Induction

/-!
# The course of a run

In the course of a run the engine asks one thing after the other, and meanwhile the world around,
with its files and lent streams, may become any other.  `Session.after` is the state that a course
leads to and `Session.exchanges` what was asked and answered on the way.

From the beginning of a run on, these exchanges decide how far the run has come: it is active from
the first count that succeeds on and over from the first accepted outcome on, which is the outcome
that the run reports (`standing_after`).
-/

set_option autoImplicit false

namespace ArchiveUpdate

/-- What can happen in the course of a run. -/
inductive RunEvent where
  /-- The engine asks something. -/
  | ask (q : Request)
  /-- The world around is another from now on. -/
  | world (h : Host)

/-- A request with its answer. -/
structure Exchange where
  request : Request
  reply : request.Reply

namespace Exchange

/-- Whether the items were counted with success. -/
def counts : Exchange → Bool
  | ⟨.countItems, .ok _⟩ => true
  | _ => false

/-- The outcome of the run that was reported and accepted. -/
def outcome? : Exchange → Option RunOutcome
  | ⟨.reportRun outcome, .ok _⟩ => some outcome
  | _ => none

/-- Only a count counts the items. -/
theorem counts_of_ne {q : Request} (r : q.Reply) (h : q ≠ .countItems) :
    counts ⟨q, r⟩ = false := by
  cases q with
  | countItems => exact absurd rfl h
  | _ => rfl

/-- Only a report of the outcome tells the outcome of the run. -/
theorem outcome?_of_ne {q : Request} (r : q.Reply) (h : ∀ outcome, q ≠ .reportRun outcome) :
    outcome? ⟨q, r⟩ = none := by
  cases q with
  | reportRun outcome => exact absurd rfl (h outcome)
  | _ => rfl

end Exchange

/-- How far the exchanges since its beginning have brought a run. -/
def phaseOf (log : List Exchange) : Phase :=
  if log.filterMap Exchange.outcome? ≠ [] then .finalizing
  else if log.any Exchange.counts then .active
  else .uninitialized

namespace Session

variable {α ρ : Type} [Archive α] [Reporter ρ]

/-- The state after an event. -/
def step (s : Session α ρ) : RunEvent → Session α ρ
  | .ask q => (s.answer q).2
  | .world h => { s with host := h }

/-- The state after a course of events. -/
def after (s : Session α ρ) (course : List RunEvent) : Session α ρ := course.foldl step s

/-- What is asked and answered in a course of events. -/
def exchanges (s : Session α ρ) : List RunEvent → List Exchange
  | [] => []
  | .ask q :: course => ⟨q, (s.answer q).1⟩ :: (s.answer q).2.exchanges course
  | .world h :: course => { s with host := h }.exchanges course

/-- The state after one event more is a step from the state before it. -/
theorem after_concat (s : Session α ρ) (course : List RunEvent) (event : RunEvent) :
    s.after (course ++ [event]) = (s.after course).step event := by
  simp [after]

/-- What is asked in two courses is what is asked in the first and then, from where it ended, in the
second. -/
theorem exchanges_append (s : Session α ρ) (course course' : List RunEvent) :
    s.exchanges (course ++ course') = s.exchanges course ++ (s.after course).exchanges course' := by
  induction course generalizing s with
  | nil => rfl
  | cons event course ih => cases event <;> simp [exchanges, ih, after, step]

/-- What was asked in a course of events was answered in the state that an earlier part of it led
to. -/
theorem reply_of_mem {s : Session α ρ} {course : List RunEvent} {q : Request} {r : q.Reply}
    (h : ⟨q, r⟩ ∈ s.exchanges course) : ∃ earlier, r = ((s.after earlier).answer q).1 := by
  induction course generalizing s with
  | nil => cases h
  | cons event course ih =>
    cases event with
    | world h' =>
      obtain ⟨earlier, hr⟩ := ih h
      exact ⟨.world h' :: earlier, hr⟩
    | ask q' =>
      rcases List.mem_cons.1 h with hnow | hlater
      · cases hnow
        exact ⟨[], rfl⟩
      · obtain ⟨earlier, hr⟩ := ih hlater
        exact ⟨.ask q' :: earlier, hr⟩

/-- No event changes which items a run is about. -/
theorem items_step (s : Session α ρ) (event : RunEvent) :
    (s.step event).items = s.items ∧ (s.step event).deletions = s.deletions := by
  have hrelease := s.sameStanding_release
  cases event with
  | world h => exact ⟨rfl, rfl⟩
  | ask q =>
    by_cases hcount : q = .countItems
    · subst hcount
      simp only [step, answer, countItems]
      split
      · exact ⟨hrelease.items, hrelease.deletions⟩
      · split <;> exact ⟨hrelease.items, hrelease.deletions⟩
    · by_cases hend : ∃ outcome, q = .reportRun outcome
      · obtain ⟨outcome, rfl⟩ := hend
        simp only [step, answer, reportRun]
        split <;> exact ⟨hrelease.items, hrelease.deletions⟩
      · have hsame := sameStanding_answer (s := s) hcount (not_exists.1 hend)
        exact ⟨hsame.items, hsame.deletions⟩

/-- No course of events changes the new items or the marks of a run. -/
theorem items_after (s : Session α ρ) (course : List RunEvent) :
    (s.after course).items = s.items ∧ (s.after course).deletions = s.deletions := by
  induction course using List.reverseRecOn with
  | nil => exact ⟨rfl, rfl⟩
  | append_singleton course event ih =>
    rw [after_concat, (items_step _ event).1, (items_step _ event).2]
    exact ih

/-- No course of events changes the number of items in the finished archive. -/
theorem total_after (s : Session α ρ) (course : List RunEvent) :
    (s.after course).total = s.total := by
  rw [total, total, (s.items_after course).1, (s.items_after course).2]

/-- The count is the same whatever source is being read, and it succeeds exactly if the items fit
into one archive, unless the run is over. -/
theorem answer_countItems (s : Session α ρ) :
    (s.answer .countItems).1 =
      (if s.phase = .finalizing then .error (.invalidState "count items" s.phase.label)
      else if maxItems < s.total then .error (.tooManyItems s.total) else .ok s.total) := by
  have hrelease := s.sameStanding_release
  have htotal := hrelease.total_eq
  simp only [answer, countItems, hrelease.phase, htotal]
  split
  · rfl
  · split <;> rfl

/-- How a run stands that began without a count and has had the given exchanges since. -/
structure Standing (s : Session α ρ) (log : List Exchange) : Prop where
  phase : s.phase = phaseOf log
  outcome : s.outcome = (log.filterMap Exchange.outcome?).head?
  once : (log.filterMap Exchange.outcome?).length ≤ 1
  fits : log.any Exchange.counts = true → s.total ≤ maxItems

namespace Standing

variable {s s' : Session α ρ} {log : List Exchange}

omit [Archive α] [Reporter ρ] in
/-- An exchange that neither counts nor ends anything leaves the run where it is. -/
theorem concat_of_sameStanding (hs : s.Standing log) (hsame : s.SameStanding s') {e : Exchange}
    (hcounts : e.counts = false) (houtcome : e.outcome? = none) : s'.Standing (log ++ [e]) := by
  have houtcomes : (log ++ [e]).filterMap Exchange.outcome? = log.filterMap Exchange.outcome? := by
    simp [houtcome]
  have hany : (log ++ [e]).any Exchange.counts = log.any Exchange.counts := by
    simp [hcounts]
  have htotal := hsame.total_eq
  refine ⟨?_, ?_, ?_, ?_⟩
  · rw [hsame.phase, hs.phase, phaseOf, phaseOf, houtcomes, hany]
  · rw [hsame.outcome, hs.outcome, houtcomes]
  · rw [houtcomes]
    exact hs.once
  · rw [hany, htotal]
    exact hs.fits

omit [Archive α] [Reporter ρ] in
/-- A run that is not over has no accepted outcome. -/
theorem outcomes_eq_nil (hs : s.Standing log) (hphase : s.phase ≠ .finalizing) :
    log.filterMap Exchange.outcome? = [] := by
  by_contra hne
  rw [hs.phase, phaseOf, if_pos hne] at hphase
  exact hphase rfl

/-- A count keeps the standing of a run. -/
theorem countItems (hs : s.Standing log) :
    (s.answer .countItems).2.Standing (log ++ [⟨.countItems, (s.answer .countItems).1⟩]) := by
  have hrelease := s.sameStanding_release
  have htotal := hrelease.total_eq
  rw [answer_countItems]
  simp only [answer, Session.countItems, hrelease.phase, htotal]
  by_cases hphase : s.phase = .finalizing
  · simp only [if_pos hphase]
    exact hs.concat_of_sameStanding hrelease rfl rfl
  · by_cases hmany : maxItems < s.total
    · simp only [if_neg hphase, if_pos hmany]
      exact hs.concat_of_sameStanding hrelease rfl rfl
    · simp only [if_neg hphase, if_neg hmany]
      have hnil := hs.outcomes_eq_nil hphase
      refine ⟨?_, ?_, ?_, ?_⟩
      · simp [phaseOf, hnil, Exchange.outcome?, Exchange.counts]
      · simp [hrelease.outcome, hs.outcome, Exchange.outcome?]
      · rw [List.filterMap_append, hnil]
        exact Nat.zero_le 1
      · intro _
        change s.release.total ≤ maxItems
        omega

/-- A report of the outcome keeps the standing of a run. -/
theorem reportRun (hs : s.Standing log) (outcome : RunOutcome) :
    (s.answer (.reportRun outcome)).2.Standing
      (log ++ [⟨.reportRun outcome, (s.answer (.reportRun outcome)).1⟩]) := by
  have hrelease := s.sameStanding_release
  have htotal := hrelease.total_eq
  simp only [answer, Session.reportRun, hrelease.phase]
  by_cases hphase : s.phase = .finalizing
  · simp only [if_pos hphase]
    exact hs.concat_of_sameStanding hrelease rfl rfl
  · simp only [if_neg hphase]
    have hnil := hs.outcomes_eq_nil hphase
    refine ⟨?_, ?_, ?_, ?_⟩
    · simp [phaseOf, Exchange.outcome?]
    · simp [hnil, Exchange.outcome?]
    · simp [hnil, Exchange.outcome?]
    · intro hcounts
      change s.release.total ≤ maxItems
      rw [htotal]
      exact hs.fits (by simpa [Exchange.counts] using hcounts)

/-- One event and its exchange, if it is one, take the standing of a run along. -/
theorem step (hs : s.Standing log) (event : RunEvent) :
    (s.step event).Standing (log ++ s.exchanges [event]) := by
  cases event with
  | world h =>
    rw [exchanges, exchanges, List.append_nil]
    exact ⟨hs.phase, hs.outcome, hs.once, hs.fits⟩
  | ask q =>
    by_cases hcount : q = .countItems
    · subst hcount
      exact hs.countItems
    · by_cases hend : ∃ outcome, q = .reportRun outcome
      · obtain ⟨outcome, rfl⟩ := hend
        exact hs.reportRun outcome
      · have hend := not_exists.1 hend
        exact hs.concat_of_sameStanding (sameStanding_answer hcount hend)
          (Exchange.counts_of_ne _ hcount) (Exchange.outcome?_of_ne _ hend)

end Standing

/-- The exchanges since the beginning of a run decide how it stands, whatever else happened. -/
theorem standing_after {s : Session α ρ} (hs : s.Standing []) (course : List RunEvent) :
    (s.after course).Standing (s.exchanges course) := by
  induction course using List.reverseRecOn with
  | nil => exact hs
  | append_singleton course event ih =>
    rw [after_concat, exchanges_append]
    exact ih.step event

section

variable {archive : α} {h : Host} {items : List NewItem} {deletions : Deletions}
  {reporter : Option ρ} {s : Session α ρ}

omit [Reporter ρ] in
/-- A run begins exactly if the marks were made for as many items as the archive has, and begins
with nothing done. -/
theorem start_eq_ok_iff : Session.start archive h items deletions reporter = .ok s ↔
    deletions.count = Archive.itemCount archive ∧
      s = { archive, host := h, items, deletions, reporter } := by
  rw [Session.start]
  split
  · rename_i hcount
    simp [hcount, eq_comm]
  · rename_i hcount
    simp [hcount]

omit [Reporter ρ] in
/-- A run begins with no exchanges. -/
theorem standing_start (hs : Session.start archive h items deletions reporter = .ok s) :
    s.Standing [] := by
  obtain ⟨-, rfl⟩ := start_eq_ok_iff.1 hs
  exact ⟨rfl, rfl, Nat.zero_le _, by simp⟩

omit [Reporter ρ] in
/-- The finished archive is to have as many items as are kept and added. -/
theorem total_start (hs : Session.start archive h items deletions reporter = .ok s) :
    s.total = deletions.kept + items.length := by
  obtain ⟨-, rfl⟩ := start_eq_ok_iff.1 hs
  rfl

end

end Session

end ArchiveUpdate
