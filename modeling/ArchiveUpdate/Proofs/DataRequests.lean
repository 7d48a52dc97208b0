import ArchiveUpdate.Proofs.ServedItems

/-!
# Requests for data

What a request for data comes to while the run is active: a run that someone wishes to cancel
refuses it, a source that failed before is not tried again, and any other source is opened
(`answer_data`).  Opening tells the reporter, hands out a stream or nothing, and records a failure;
no other request touches a source of an item (`answer_of_ne_data`).
-/

set_option autoImplicit false

namespace ArchiveUpdate

/-- Why something went wrong, if it did. -/
def fault? {β : Type} : Except IoError β → Option IoError
  | .error e => some e
  | .ok _ => none

/-- A position is on record if one of the entries is about it. -/
theorem FailureLog.isSome_get?_iff {log : FailureLog} {i : OutputIndex} :
    (log.get? i).isSome ↔ ∃ f ∈ log.entries, f.index = i := by
  simp [get?, List.find?_isSome]

namespace Session

variable {α ρ : Type} [Archive α] [Reporter ρ]

omit [Archive α] in
/-- The run is cancelled, or the reporter would have it cancelled if it were asked now. -/
def wantsStop (s : Session α ρ) : Bool :=
  s.cancelled || s.reporter.any fun r => (Reporter.wantsCancel r).1

omit [Archive α] in
/-- The run after the source read last was given back and the reporter was asked, unless the answer
was known before, whether to cancel. -/
def asked (s : Session α ρ) : Session α ρ :=
  { s.release with
    reporter := if s.cancelled then s.reporter
      else s.reporter.map fun r => (Reporter.wantsCancel r).2 }

omit [Archive α] in
/-- Asking whether to cancel, once the source read last is given back, answers whether anyone wants
to and leaves the run as it is after asking. -/
theorem cancelRequested_release (s : Session α ρ) :
    s.release.cancelRequested = (s.wantsStop, s.asked) := by
  obtain ⟨h, reading, heq⟩ := s.release_eq
  unfold cancelRequested wantsStop asked
  rw [heq]
  cases s.cancelled with
  | true => rfl
  | false =>
    cases s.reporter with
    | none => rfl
    | some r => simp

omit [Archive α] in
/-- Asking whether to cancel leaves the archive alone. -/
@[simp] theorem archive_asked (s : Session α ρ) : s.asked.archive = s.archive := s.archive_release

omit [Archive α] in
/-- Asking whether to cancel records no failure. -/
@[simp] theorem failures_asked (s : Session α ρ) : s.asked.failures = s.failures :=
  s.failures_release

omit [Archive α] in
/-- Asking whether to cancel does nothing to the world but give back the source read last. -/
@[simp] theorem host_asked (s : Session α ρ) : s.asked.host = s.release.host := rfl

/-- What a request for data can come to: it is refused, finds the run cancelled or the source on
record as failed, or the source is opened. -/
theorem answer_data_cases (s : Session α ρ) (i : OutputIndex) :
    (∃ e, s.answer (.data i) = (.error e, s.release)) ∨
    s.answer (.data i) = (.error .cancelled, { s.asked with cancelled := true }) ∨
    s.answer (.data i) = (.ok .unavailable, s.asked) ∨
    ∃ item, s.answer (.data i) =
      (.ok (s.asked.openSource i item).1, (s.asked.openSource i item).2) := by
  have hanswer : s.answer (.data i) = s.release.data i := rfl
  have hasked : s.release.cancelRequested.2 = s.asked := by rw [cancelRequested_release]
  rw [hanswer, ← hasked]
  rcases s.release.data_cases i with
    ⟨e, -, h⟩ | ⟨item, -, ⟨-, h⟩ | ⟨-, -, h⟩ | ⟨-, -, h⟩⟩
  · exact .inl ⟨e, h⟩
  · exact .inr (.inl h)
  · exact .inr (.inr (.inl h))
  · exact .inr (.inr (.inr ⟨item, h⟩))

section

variable {s : Session α ρ} {i : OutputIndex} {item : OutputItem}

/-- A request for the data of an item that is there is refused if someone wants to cancel, finds the
source on record as failed, or opens it. -/
theorem answer_data (hphase : s.phase = .active) (hfits : s.total ≤ maxItems)
    (hat : s.outputs[i.val]? = some item) :
    s.answer (.data i) =
      if s.wantsStop then (.error .cancelled, { s.asked with cancelled := true })
      else if (s.failures.get? i).isSome then (.ok .unavailable, s.asked)
      else (.ok (s.asked.openSource i item).1, (s.asked.openSource i item).2) := by
  have hitem : s.release.item i "open item data" = .ok item := by
    rw [item_release, item_of_active hphase hfits, hat]
  simp only [answer, data, hitem, cancelRequested_release]
  cases s.wantsStop with
  | true => rfl
  | false =>
    simp only [failures_asked]
    cases (s.failures.get? i).isSome <;> rfl

/-- A request for data is refused as it stands if the run is not active or has no such position. -/
theorem answer_data_refused (h : s.phase = .active → s.outputs[i.val]? = none)
    (hfits : s.phase = .active → s.total ≤ maxItems) :
    ∃ e, s.answer (.data i) = (.error e, s.release) ∧
      ((∃ operation state, e = .invalidState operation state) ∨
        e = .indexOutOfRange i.val s.total) := by
  by_cases hphase : s.phase = .active
  · have hitem : s.release.item i "open item data" = .error (.indexOutOfRange i.val s.total) := by
      rw [item_release, item_of_active hphase (hfits hphase), h hphase]
    refine ⟨_, ?_, .inr rfl⟩
    simp only [answer, data, hitem]
  · have hitem : s.release.item i "open item data" =
        .error (.invalidState "open item data" s.phase.label) := by
      rw [item_release, item_of_inactive hphase]
    refine ⟨.invalidState "open item data" s.phase.label, ?_, .inl ⟨_, _, rfl⟩⟩
    simp only [answer, data, hitem]

/-- Opening a source is answered as unavailable exactly if it fails, and that is then recorded. -/
theorem openSource_fault (s : Session α ρ) (i : OutputIndex) (item : OutputItem) :
    ((s.openSource i item).1 = .unavailable ↔
      (fault? (item.openData s.archive s.host).1).isSome) ∧
    (s.openSource i item).2.failures.entries = s.failures.entries ++
      ((fault? (item.openData s.archive s.host).1).map fun e =>
        ⟨i, item.path s.archive, e.message, e.kind⟩).toList := by
  simp only [openSource, tell]
  rcases item.openData s.archive s.host with ⟨opened, archive, h⟩
  cases opened with
  | error e => exact ⟨by simp [fault?], rfl⟩
  | ok source? => cases source? <;> exact ⟨by simp [fault?], by simp [fault?]⟩

/-- What requests for anything but data leave alone: the archive and the failure log, and whether
there is a reporter; only a report of progress can cancel the run besides. -/
theorem answer_of_ne_data {q : Request} (hq : ∀ i, q ≠ .data i) :
    (s.answer q).2.archive = s.archive ∧ (s.answer q).2.failures = s.failures ∧
      (s.answer q).2.reporter.isSome = s.reporter.isSome ∧
      ((∀ bytes, q ≠ .setCompleted bytes) → (s.answer q).2.cancelled = s.cancelled) := by
  obtain ⟨h, reading, heq⟩ := s.release_eq
  cases q with
  | data i => exact absurd rfl (hq i)
  | read n =>
    simp only [answer, read]
    split
    · exact ⟨rfl, rfl, rfl, fun _ => rfl⟩
    · split <;> exact ⟨rfl, rfl, rfl, fun _ => rfl⟩
  | countItems =>
    simp only [answer, countItems, heq]
    split
    · exact ⟨rfl, rfl, rfl, fun _ => rfl⟩
    · split <;> exact ⟨rfl, rfl, rfl, fun _ => rfl⟩
  | reportRun outcome =>
    simp only [answer, reportRun, heq]
    split <;> exact ⟨rfl, rfl, rfl, fun _ => rfl⟩
  | reportItem i outcome =>
    simp only [answer, reportItem, heq]
    split
    · exact ⟨rfl, rfl, rfl, fun _ => rfl⟩
    · cases outcome <;> exact ⟨rfl, rfl, by simp [tell], fun _ => rfl⟩
  | setCompleted bytes =>
    simp only [answer, setCompleted, heq]
    cases hreporter : s.reporter with
    | none => exact ⟨rfl, rfl, by simp, fun _ => rfl⟩
    | some r =>
      simp only []
      split <;> exact ⟨rfl, rfl, rfl, fun hne => absurd rfl (hne bytes)⟩
  | setTotal bytes => simp [answer, tell, heq]
  | setRatio input output => simp [answer, tell, heq]
  | interrupt => simp [answer, tell, heq]
  | _ => simp [answer, heq]

end

end Session

end ArchiveUpdate
