import ArchiveUpdate.Proofs.DataRequests
import ArchiveUpdate.Proofs.RunHistory

/-!
# Cancelling a run

A run is stopped by a report of progress that is answered with no, or by a request for data that is
refused because someone wishes to cancel.  Either is for good: whatever the reporter says later,
every report of progress is answered with no from then on, and no source is opened
(`cancellation_latched`).  What stops a run first is an objection of its reporter.
-/

set_option autoImplicit false

namespace ArchiveUpdate

/-- Among the exchanges a report of progress was answered with no, or a request for data found the
run cancelled. -/
def Stopped (log : List Exchange) : Prop :=
  (∃ bytes, ⟨.setCompleted bytes, false⟩ ∈ log) ∨ ∃ i, ⟨.data i, .error .cancelled⟩ ∈ log

/-- A run in which nothing was asked was not stopped. -/
theorem not_stopped_nil : ¬Stopped [] := by
  simp [Stopped]

/-- A run was stopped if it was stopped before the last exchange or by it. -/
theorem stopped_concat {log : List Exchange} {e : Exchange} :
    Stopped (log ++ [e]) ↔ Stopped log ∨ Stopped [e] := by
  simp only [Stopped, List.mem_append, exists_or]
  exact or_or_or_comm

/-- A report of progress stops the run if it is answered by not going on. -/
theorem stopped_singleton_setCompleted {bytes : Nat} {goOn : Bool} :
    Stopped [⟨.setCompleted bytes, goOn⟩] ↔ goOn = false := by
  simp [Stopped, eq_comm]

/-- A request for data stops the run if it is refused as cancelled. -/
theorem stopped_singleton_data {i : OutputIndex} {r : Except UpdateError DataAnswer} :
    Stopped [⟨.data i, r⟩] ↔ r = .error .cancelled := by
  simp [Stopped, eq_comm]

/-- Only reports of progress and requests for data stop a run. -/
theorem not_stopped_singleton {q : Request} (r : q.Reply) (hdata : ∀ i, q ≠ .data i)
    (hcompleted : ∀ bytes, q ≠ .setCompleted bytes) : ¬Stopped [⟨q, r⟩] := by
  rintro (⟨bytes, h⟩ | ⟨i, h⟩)
  · exact hcompleted bytes (congrArg Exchange.request (List.mem_singleton.1 h)).symm
  · exact hdata i (congrArg Exchange.request (List.mem_singleton.1 h)).symm

namespace Session

variable {α ρ : Type} [Archive α] [Reporter ρ]

omit [Archive α] in
/-- The reporter, if it is asked because of the request, has the run stopped. -/
def Objects (s : Session α ρ) : Request → Prop
  | .data _ => ∃ r, s.reporter = some r ∧ (Reporter.wantsCancel r).1 = true
  | .setCompleted bytes => ∃ r, s.reporter = some r ∧
      ((Reporter.progress r bytes s.totalBytes).1 = false ∨
        (Reporter.wantsCancel (Reporter.progress r bytes s.totalBytes).2).1 = true)
  | _ => False

section

variable {s : Session α ρ}

omit [Archive α] in
/-- Only a reporter objects to going on. -/
theorem Objects.isSome_reporter {q : Request} (h : s.Objects q) : s.reporter.isSome := by
  unfold Objects at h
  split at h
  · obtain ⟨r, hr, -⟩ := h
    rw [hr]
    rfl
  · obtain ⟨r, hr, -⟩ := h
    rw [hr]
    rfl
  · cases h

omit [Archive α] [Reporter ρ] in
/-- Giving back the source read last does not cancel the run. -/
theorem cancelled_release (s : Session α ρ) : s.release.cancelled = s.cancelled := by
  obtain ⟨h, reading, heq⟩ := s.release_eq
  rw [heq]

omit [Archive α] [Reporter ρ] in
/-- Giving back the source read last tells the reporter nothing. -/
theorem reporter_release (s : Session α ρ) : s.release.reporter = s.reporter := by
  obtain ⟨h, reading, heq⟩ := s.release_eq
  rw [heq]

omit [Archive α] in
/-- In a cancelled run nobody is asked whether to cancel. -/
theorem asked_of_cancelled (h : s.cancelled = true) :
    { s.asked with cancelled := true } = s.release := by
  have hcancelled : s.release.cancelled = true := s.cancelled_release.trans h
  rw [asked, if_pos h, ← s.reporter_release, ← hcancelled]

/-- A report of progress in a cancelled run is answered with no, and so is one that the reporter
objects to. -/
theorem answer_setCompleted (s : Session α ρ) (bytes : Nat) :
    ((s.answer (.setCompleted bytes)).1 = false ↔
      s.cancelled = true ∨ s.Objects (.setCompleted bytes)) ∧
    (s.answer (.setCompleted bytes)).2.cancelled = !(s.answer (.setCompleted bytes)).1 := by
  obtain ⟨h, reading, heq⟩ := s.release_eq
  simp only [answer, setCompleted, Objects, heq]
  cases s.reporter with
  | none => simp
  | some r =>
    rcases hprogress : Reporter.progress r bytes s.totalBytes with ⟨goOn, r'⟩
    cases goOn with
    | false => simp [hprogress]
    | true => cases s.cancelled <;> simp [hprogress]

/-- Opening a source does not cancel the run. -/
theorem cancelled_openSource (s : Session α ρ) (i : OutputIndex) (item : OutputItem) :
    (s.openSource i item).2.cancelled = s.cancelled := by
  simp only [openSource, tell]
  split <;> rfl

/-- Opening a source leaves the run with a reporter or without one, as it was. -/
theorem isSome_reporter_openSource (s : Session α ρ) (i : OutputIndex) (item : OutputItem) :
    (s.openSource i item).2.reporter.isSome = s.reporter.isSome := by
  simp only [openSource, tell]
  split <;> simp

/-- A request for data finds the run cancelled exactly if somebody wishes to cancel and it would be
answered otherwise; it cancels the run then, opens nothing and tells the reporter nothing. -/
theorem answer_data_cancelled (hfits : s.phase = .active → s.total ≤ maxItems) (i : OutputIndex) :
    ((s.answer (.data i)).1 = .error .cancelled ∧ s.wantsStop = true ∧
      (s.answer (.data i)).2 = { s.asked with cancelled := true }) ∨
    (s.answer (.data i)).1 ≠ .error .cancelled ∧
      (s.answer (.data i)).2.cancelled = s.cancelled := by
  by_cases hrefused : s.phase = .active → s.outputs[i.val]? = none
  · obtain ⟨e, hanswer, hcause⟩ := answer_data_refused hrefused hfits
    rw [hanswer]
    refine .inr ⟨?_, s.cancelled_release⟩
    rintro hcancelled
    cases hcancelled
    rcases hcause with ⟨operation, state, h⟩ | h <;> cases h
  · obtain ⟨hphase, hat⟩ := Classical.not_imp.1 hrefused
    obtain ⟨item, hat⟩ := Option.ne_none_iff_exists'.1 hat
    rw [answer_data hphase (hfits hphase) hat]
    cases hstop : s.wantsStop with
    | true => exact .inl ⟨rfl, rfl, rfl⟩
    | false =>
      have hasked : s.asked.cancelled = s.cancelled := s.cancelled_release
      refine .inr ?_
      cases (s.failures.get? i).isSome with
      | true => exact ⟨by simp, by simpa using hasked⟩
      | false => exact ⟨by simp, by simpa [cancelled_openSource] using hasked⟩

/-- After a request the run is cancelled if it was before or if the request was answered so, and the
latter happens only in a cancelled run or where the reporter objects. -/
theorem cancelled_answer (hfits : s.phase = .active → s.total ≤ maxItems) (q : Request) :
    ((s.answer q).2.cancelled = true ↔ s.cancelled = true ∨ Stopped [⟨q, (s.answer q).1⟩]) ∧
    (Stopped [⟨q, (s.answer q).1⟩] → s.cancelled = true ∨ s.Objects q) := by
  by_cases hdata : ∃ i, q = .data i
  · obtain ⟨i, rfl⟩ := hdata
    rw [stopped_singleton_data]
    rcases answer_data_cancelled hfits i with ⟨hanswer, hstop, hstate⟩ | ⟨hanswer, hstate⟩
    · rw [hanswer, hstate]
      refine ⟨by simp, fun _ => ?_⟩
      rw [wantsStop, Bool.or_eq_true, Option.any_eq_true] at hstop
      exact hstop
    · rw [hstate]
      simp [hanswer]
  · by_cases hcompleted : ∃ bytes, q = .setCompleted bytes
    · obtain ⟨bytes, rfl⟩ := hcompleted
      obtain ⟨hanswer, hstate⟩ := s.answer_setCompleted bytes
      rw [stopped_singleton_setCompleted, hstate, Bool.not_eq_true', hanswer]
      tauto
    · have hdata := not_exists.1 hdata
      have hcompleted := not_exists.1 hcompleted
      have hstopped := not_stopped_singleton (s.answer q).1 hdata hcompleted
      rw [(answer_of_ne_data hdata).2.2.2 hcompleted]
      tauto

/-- No request takes the reporter away or brings one in. -/
theorem isSome_reporter_answer (s : Session α ρ) (q : Request) :
    (s.answer q).2.reporter.isSome = s.reporter.isSome := by
  by_cases hdata : ∃ i, q = .data i
  · obtain ⟨i, rfl⟩ := hdata
    have hasked : s.asked.reporter.isSome = s.reporter.isSome := by
      unfold asked
      split <;> simp
    rcases s.answer_data_cases i with ⟨e, h⟩ | h | h | ⟨item, h⟩
    · rw [h, reporter_release]
    · rw [h]
      exact hasked
    · rw [h]
      exact hasked
    · rw [h]
      exact (isSome_reporter_openSource s.asked i item).trans hasked
  · exact (answer_of_ne_data (not_exists.1 hdata)).2.2.1

end

section

variable {s now : Session α ρ} {moments : List (Moment α ρ)}

/-- A run is cancelled exactly once one of its requests has stopped it. -/
theorem cancelled_of_run (hs : s.Standing []) (hfresh : s.cancelled = false)
    (hrun : s.Run moments now) :
    now.cancelled = true ↔ Stopped (moments.map Moment.exchange) := by
  induction hrun with
  | begin => simp [hfresh, not_stopped_nil]
  | drift archive h react _ ih => exact ih
  | @ask moments now q hbefore ih =>
    have hstanding := standing_of_run hs hbefore
    rw [List.map_append, List.map_singleton, stopped_concat, ← ih]
    exact (cancelled_answer hstanding.fits_of_active q).1

/-- A run has a reporter for its whole length or not at all. -/
theorem isSome_reporter_of_run (hrun : s.Run moments now) :
    now.reporter.isSome = s.reporter.isSome := by
  induction hrun with
  | begin => rfl
  | drift archive h react _ ih => simpa [Session.drift] using ih
  | @ask moments now q _ ih => rw [isSome_reporter_answer, ih]

/-- Without an objection of its reporter a run is never stopped. -/
theorem not_stopped_of_run (hs : s.Standing []) (hfresh : s.cancelled = false)
    (hrun : s.Run moments now) (hquiet : ∀ m ∈ moments, ¬m.state.Objects m.request) :
    ¬Stopped (moments.map Moment.exchange) := by
  induction hrun with
  | begin => exact not_stopped_nil
  | drift archive h react _ ih => exact ih hquiet
  | @ask moments now q hbefore ih =>
    have hstanding := standing_of_run hs hbefore
    have hearlier : ¬Stopped (moments.map Moment.exchange) := by
      apply ih
      intro m hm
      exact hquiet m (List.mem_append_left _ hm)
    have hgoing : ¬now.cancelled = true := by
      rw [cancelled_of_run hs hfresh hbefore]
      exact hearlier
    have hnow : ¬now.Objects q := hquiet _ (List.mem_append_right _ (List.mem_singleton_self _))
    rw [List.map_append, List.map_singleton, stopped_concat]
    rintro (hstopped | hstopped)
    · exact hearlier hstopped
    · rcases (cancelled_answer hstanding.fits_of_active q).2 hstopped with hcancelled | hobjects
      · exact hgoing hcancelled
      · exact hnow hobjects

end

/-- In every run, whatever is asked and whatever the reporter answers from time to time: the run
reports itself cancelled exactly if a report of progress was answered with no or a request for data
found it cancelled.  From then on every report of progress is answered with no, and every request
for data that would be answered otherwise finds the run cancelled; giving back the source read last
is all that happens.  When that happens first, the reporter is asked whether to cancel and nothing
else.  A run without a reporter, or whose reporter never objects, is never stopped. -/
theorem cancellation_latched {archive : α} {h : Host} {items : List NewItem} {deletions : Deletions}
    {reporter : Option ρ} {s now : Session α ρ} {moments : List (Moment α ρ)}
    (hs : Session.start archive h items deletions reporter = .ok s) (hrun : s.Run moments now) :
    let n := deletions.kept + items.length
    let log := moments.map Moment.exchange
    (now.report.cancelled = true ↔ Stopped log) ∧
    (Stopped log → (∀ bytes, (now.answer (.setCompleted bytes)).1 = false) ∧
      ∀ i : OutputIndex, Counted log → ¬Ended log → i.val < n →
        now.answer (.data i) = (.error .cancelled, now.release)) ∧
    (∀ i : OutputIndex, (now.answer (.data i)).1 = .error .cancelled →
      (now.answer (.data i)).2 = { now.asked with cancelled := true }) ∧
    (reporter = none ∨ (∀ m ∈ moments, ¬m.state.Objects m.request) → ¬Stopped log) := by
  intro n log
  have hstanding : s.Standing [] := standing_start hs
  have hfresh : s.cancelled = false := by
    obtain ⟨-, rfl⟩ := start_eq_ok_iff.1 hs
    rfl
  have hreporter : s.reporter = reporter := by
    obtain ⟨-, rfl⟩ := start_eq_ok_iff.1 hs
    rfl
  have hcancelled : now.cancelled = true ↔ Stopped log := cancelled_of_run hstanding hfresh hrun
  have htotal : now.total = n := by
    rw [total_of_run hrun]
    exact total_start hs
  obtain ⟨hwindow, hfits⟩ := active_of_run hs hrun
  refine ⟨hcancelled, ?_, ?_, ?_⟩
  · intro hstopped
    have hlatched : now.cancelled = true := hcancelled.2 hstopped
    have hstop : now.wantsStop = true := by
      rw [wantsStop, hlatched, Bool.true_or]
    refine ⟨fun bytes => (now.answer_setCompleted bytes).1.2 (.inl hlatched), ?_⟩
    intro i hcounted hgoing hrange
    have hphase : now.phase = .active := hwindow.2 ⟨hcounted, hgoing⟩
    have hlen : i.val < now.outputs.length := by
      rwa [length_outputs, htotal]
    rw [answer_data hphase (hfits hphase) (List.getElem?_eq_getElem hlen), if_pos hstop,
      asked_of_cancelled hlatched]
  · intro i hrefused
    rcases answer_data_cancelled hfits i with ⟨-, -, hstate⟩ | ⟨hother, -⟩
    · exact hstate
    · exact absurd hrefused hother
  · intro hcalm
    apply not_stopped_of_run hstanding hfresh hrun
    intro m hm hobjects
    rcases hcalm with hnone | hquiet
    · obtain ⟨earlier, hbefore⟩ := run_of_mem hrun hm
      have hsome := hobjects.isSome_reporter
      rw [isSome_reporter_of_run hbefore, hreporter, hnone] at hsome
      cases hsome
    · exact hquiet m hm hobjects

/-- A reporter that is asked for the end stops a run at the next report of progress, and the run
stays stopped although the reporter thinks better of it before any data is asked for. -/
theorem cancellation_latched_second_thoughts :
    let archive : MemoryArchive := ⟨[⟨"a", some [1], default, 32⟩], 0⟩
    let h : Host := ⟨⟨.empty, [], []⟩, [], default⟩
    ∃ (s now : Session MemoryArchive Statistics)
      (moments : List (Moment MemoryArchive Statistics)),
      Session.start archive h [] (.empty 1) (some {}) = .ok s ∧ s.Run moments now ∧
      (now.reporter.map fun r => r.cancelled) = some false ∧
      Stopped (moments.map Moment.exchange) ∧
      now.answer (.data ⟨0⟩) = (.error .cancelled, now.release) := by
  intro archive h
  let s : Session MemoryArchive Statistics :=
    { archive, host := h, items := [], deletions := .empty 1, reporter := some {} }
  have hs : Session.start archive h [] (.empty 1) (some {}) = .ok s := rfl
  have hasked := (((Run.begin (s := s)).ask .countItems).ask .interrupt).ask (.setCompleted 1)
  have hrun := hasked.drift archive h fun r => { r with cancelled := false }
  obtain ⟨hflag, hlatch, -⟩ := cancellation_latched hs hrun
  have hstopped := hflag.1 rfl
  obtain ⟨hcounted, hgoing⟩ := (active_of_run hs hrun).1.1 rfl
  refine ⟨_, _, _, hs, hrun, rfl, hstopped, ?_⟩
  exact (hlatch hstopped).2 ⟨0⟩ hcounted hgoing (by decide)

end Session

end ArchiveUpdate
