import ArchiveUpdate.Proofs.Deliveries
import ArchiveUpdate.Proofs.EngineRuns
import Mathlib.Algebra.BigOperators.Group.List.Basic

/-!
# The report of a run accounts for its exchanges

A run counts the items that are reported to it and the bytes that it delivers.  The counts are those
of its exchanges (`Ledger`): each item whose outcome was accepted counts once, as what it was
reported, and each byte once, in the delivery that it belongs to.  This holds after any course of
events and for whatever an engine asks (`ledger_of_run`).  The items are counted in words of 32 bits
(`counts_after`), so that a count is exact as long as it fits into one.
-/

set_option autoImplicit false

namespace ArchiveUpdate

/-- Whether the item made it into the finished archive. -/
def ItemOutcome.isSuccess : ItemOutcome → Bool
  | success => true
  | failed _ => false

/-- The outcome of an item that was reported and accepted. -/
def Exchange.itemOutcome? : Exchange → Option ItemOutcome
  | ⟨.reportItem _ outcome, .ok _⟩ => some outcome
  | _ => none

/-- No other request reports the outcome of an item. -/
theorem Exchange.itemOutcome?_of_ne {q : Request} (r : q.Reply)
    (hq : ∀ i outcome, q ≠ .reportItem i outcome) : itemOutcome? ⟨q, r⟩ = none := by
  cases q with
  | reportItem i outcome => exact absurd rfl (hq i outcome)
  | _ => rfl

/-- The number of accepted reports of success. -/
def reportedDone (log : List Exchange) : Nat :=
  (log.filterMap Exchange.itemOutcome?).countP (·.isSuccess)

/-- The number of accepted reports of failure. -/
def reportedFailed (log : List Exchange) : Nat :=
  (log.filterMap Exchange.itemOutcome?).countP (!·.isSuccess)

namespace Session

variable {α ρ : Type}

/-- The two states count the same items. -/
structure SameCounts (s s' : Session α ρ) : Prop where
  succeeded : s'.succeeded = s.succeeded
  failed : s'.failed = s.failed

/-- Giving back the source read last counts nothing. -/
theorem sameCounts_release (s : Session α ρ) : s.SameCounts s.release := by
  obtain ⟨h, reading, heq⟩ := s.release_eq
  rw [heq]
  exact ⟨rfl, rfl⟩

variable [Archive α] [Reporter ρ]

omit [Archive α] in
/-- Asking whether to cancel counts nothing. -/
theorem sameCounts_asked (s : Session α ρ) : s.SameCounts s.asked :=
  ⟨s.sameCounts_release.succeeded, s.sameCounts_release.failed⟩

/-- Opening a source counts nothing. -/
theorem sameCounts_openSource (s : Session α ρ) (i : OutputIndex) (item : OutputItem) :
    s.SameCounts (s.openSource i item).2 := by
  simp only [openSource, tell]
  split <;> exact ⟨rfl, rfl⟩

section

variable {s : Session α ρ}

/-- Only the report of an item counts items. -/
theorem sameCounts_answer {q : Request} (hq : ∀ i outcome, q ≠ .reportItem i outcome) :
    s.SameCounts (s.answer q).2 := by
  have hrelease := s.sameCounts_release
  have hasked := s.sameCounts_asked
  cases q with
  | reportItem i outcome => exact absurd rfl (hq i outcome)
  | read n =>
    simp only [answer, read]
    split
    · exact ⟨rfl, rfl⟩
    · split <;> exact ⟨rfl, rfl⟩
  | data i =>
    rcases s.answer_data_cases i with ⟨e, h⟩ | h | h | ⟨item, h⟩
    · rw [h]
      exact hrelease
    · rw [h]
      exact ⟨hasked.succeeded, hasked.failed⟩
    · rw [h]
      exact hasked
    · have hopened := s.asked.sameCounts_openSource i item
      rw [h]
      exact ⟨hopened.succeeded.trans hasked.succeeded, hopened.failed.trans hasked.failed⟩
  | countItems =>
    simp only [answer, countItems]
    split
    · exact hrelease
    · split
      · exact hrelease
      · exact ⟨hrelease.succeeded, hrelease.failed⟩
  | reportRun outcome =>
    simp only [answer, reportRun]
    split
    · exact hrelease
    · exact ⟨hrelease.succeeded, hrelease.failed⟩
  | setCompleted bytes =>
    simp only [answer, setCompleted]
    split
    · exact hrelease
    · split <;> exact ⟨hrelease.succeeded, hrelease.failed⟩
  | _ => exact ⟨hrelease.succeeded, hrelease.failed⟩

omit [Archive α] [Reporter ρ] in
/-- The counters show so many items as done and so many as failed. -/
structure Shows (s : Session α ρ) (done failed : Nat) : Prop where
  succeeded : s.succeeded = word32 done
  failed : s.failed = word32 failed

omit [Archive α] [Reporter ρ] in
/-- Counters that stay the same show the same. -/
theorem SameCounts.shows {s' : Session α ρ} (hsame : s.SameCounts s') {done failed : Nat}
    (h : s.Shows done failed) : s'.Shows done failed :=
  ⟨hsame.succeeded.trans h.succeeded, hsame.failed.trans h.failed⟩

/-- The report of an item counts it as what it is reported, unless it is refused. -/
theorem Shows.answer {done failed : Nat} (h : s.Shows done failed) (q : Request) :
    (s.answer q).2.Shows (done + reportedDone [⟨q, (s.answer q).1⟩])
      (failed + reportedFailed [⟨q, (s.answer q).1⟩]) := by
  by_cases hreport : ∃ i outcome, q = .reportItem i outcome
  · obtain ⟨i, outcome, rfl⟩ := hreport
    obtain ⟨hdone, hfailed⟩ := s.sameCounts_release.shows h
    simp only [Session.answer, reportItem]
    cases s.release.item i "report an item outcome" with
    | error e => exact ⟨hdone, hfailed⟩
    | ok item =>
      cases outcome with
      | success =>
        refine ⟨?_, hfailed⟩
        change word32 (s.release.succeeded + 1) = word32 (done + 1)
        rw [hdone, word32_add]
      | failed reason =>
        refine ⟨hdone, ?_⟩
        change word32 (s.release.failed + 1) = word32 (failed + 1)
        rw [hfailed, word32_add]
  · have hreport : ∀ i outcome, q ≠ .reportItem i outcome := fun i outcome hq =>
      hreport ⟨i, outcome, hq⟩
    have hnone : [⟨q, (s.answer q).1⟩].filterMap Exchange.itemOutcome? = [] := by
      simp only [List.filterMap_cons, Exchange.itemOutcome?_of_ne _ hreport, List.filterMap_nil]
    rw [reportedDone, reportedFailed, hnone]
    exact (s.sameCounts_answer hreport).shows h

end

end Session

end ArchiveUpdate
