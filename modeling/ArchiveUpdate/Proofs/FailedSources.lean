import ArchiveUpdate.Proofs.DataRequests
import ArchiveUpdate.Proofs.RunHistory

/-!
# The failure log of a run

A request for data that a run takes up is an `Attempt`: it says which position was asked for and
whether its source would open at that moment.  The failure log of a run holds, for every position,
the first of its attempts that fails, in the order of the attempts, and nothing else
(`failures_of_run`); from then on the position is unavailable, however its source is by now.
-/

set_option autoImplicit false

namespace ArchiveUpdate

/-- A request for data that was neither refused nor found the run cancelled. -/
structure Attempt where
  index : OutputIndex
  /-- The name under which the item is reported. -/
  name : String
  /-- Why the source would not open at that moment, if it would not. -/
  fault : Option IoError

namespace Attempt

/-- The failure that the attempt comes to if the source is tried. -/
def failure? (a : Attempt) : Option FailedItem :=
  a.fault.map fun e => ⟨a.index, a.name, e.message, e.kind⟩

/-- The attempt was at this position and its source would not open. -/
def FailsAt (a : Attempt) (i : OutputIndex) : Prop := a.index = i ∧ a.fault.isSome

instance (a : Attempt) (i : OutputIndex) : Decidable (a.FailsAt i) :=
  inferInstanceAs (Decidable (_ ∧ _))

/-- The failure of an attempt is about the position that was tried. -/
theorem index_of_failure? {a : Attempt} {f : FailedItem} (h : a.failure? = some f) :
    a.FailsAt f.index := by
  obtain ⟨e, he, rfl⟩ := Option.map_eq_some_iff.1 h
  exact ⟨rfl, by rw [he]; rfl⟩

end Attempt

/-- The failures of those attempts before which none at the same position failed. -/
def firstFailures (attempts : List Attempt) : List FailedItem :=
  attempts.zipIdx.filterMap fun (a, k) =>
    if ∃ b ∈ attempts.take k, b.FailsAt a.index then none else a.failure?

/-- One more attempt adds its failure unless an earlier one at the same position failed. -/
theorem firstFailures_concat (attempts : List Attempt) (a : Attempt) :
    firstFailures (attempts ++ [a]) = firstFailures attempts ++
      if ∃ b ∈ attempts, b.FailsAt a.index then [] else a.failure?.toList := by
  unfold firstFailures
  rw [List.zipIdx_append, List.filterMap_append]
  congr 1
  · apply List.filterMap_congr
    rintro ⟨b, k⟩ hb
    have hk : k ≤ attempts.length := by
      have hlt := List.snd_lt_of_mem_zipIdx hb
      omega
    simp only [List.take_append_of_le_length hk]
  · simp only [List.zipIdx_singleton, Nat.zero_add, List.filterMap_cons, List.filterMap_nil,
      List.take_left]
    by_cases hearlier : ∃ b ∈ attempts, b.FailsAt a.index
    · simp only [if_pos hearlier]
    · simp only [if_neg hearlier]
      cases a.failure? <;> rfl

/-- A position is among the first failures if an attempt at it failed at all. -/
theorem exists_mem_firstFailures (attempts : List Attempt) (i : OutputIndex) :
    (∃ f ∈ firstFailures attempts, f.index = i) ↔ ∃ b ∈ attempts, b.FailsAt i := by
  induction attempts using List.reverseRecOn with
  | nil => simp [firstFailures]
  | append_singleton attempts a ih =>
    rw [firstFailures_concat]
    simp only [List.mem_append, or_and_right, exists_or, ih]
    refine or_congr_right' fun hfresh => ?_
    constructor
    · rintro ⟨f, hf, rfl⟩
      split at hf
      · cases hf
      · exact ⟨a, List.mem_singleton_self a, Attempt.index_of_failure? (Option.mem_toList.1 hf)⟩
    · rintro ⟨b, hb, hfails⟩
      obtain rfl := List.mem_singleton.1 hb
      obtain ⟨rfl, hfault⟩ := hfails
      obtain ⟨e, he⟩ := Option.isSome_iff_exists.1 hfault
      rw [if_neg hfresh]
      refine ⟨⟨b.index, b.name, e.message, e.kind⟩, ?_, rfl⟩
      simp [Attempt.failure?, he]

/-- No position is among the first failures twice. -/
theorem nodup_firstFailures (attempts : List Attempt) :
    ((firstFailures attempts).map (·.index)).Nodup := by
  induction attempts using List.reverseRecOn with
  | nil => exact List.nodup_nil
  | append_singleton attempts a ih =>
    rw [firstFailures_concat]
    by_cases hearlier : ∃ b ∈ attempts, b.FailsAt a.index
    · rw [if_pos hearlier, List.append_nil]
      exact ih
    · rw [if_neg hearlier]
      cases hfailure : a.failure? with
      | none => simpa using ih
      | some f =>
        have hindex : f.index = a.index := (Attempt.index_of_failure? hfailure).1.symm
        have hnew : f.index ∉ (firstFailures attempts).map (·.index) := by
          rw [hindex, List.mem_map, exists_mem_firstFailures]
          exact hearlier
        rw [Option.toList_some, List.map_append, List.nodup_append]
        refine ⟨ih, by simp, ?_⟩
        rintro i hi j hj rfl
        rw [List.mem_singleton.1 hj] at hi
        exact hnew hi

namespace OutputItem

variable {α : Type} [Archive α]

/-- The path that the item has as a property; a stored item whose path is no text is named by its
position. -/
def shownPath (item : OutputItem) (a : α) : String :=
  match item.property a .path, item with
  | .string path, _ => path
  | _, kept j => s!"original #{j.val}"
  | _, added _ => ""

/-- The path under which a failure is recorded is the one that the item shows. -/
theorem path_eq_shownPath (item : OutputItem) (a : α) : item.path a = item.shownPath a := by
  cases item with
  | added new => rfl
  | kept j =>
    have hproperty : (kept j).property a .path = Archive.property a j .path := rfl
    simp only [path, shownPath, hproperty, Archive.path?]
    cases Archive.property a j .path <;> rfl

end OutputItem

namespace Session

variable {α ρ : Type} [Archive α] [Reporter ρ]

/-- What a request is an attempt at, if it is one. -/
def attempt? (s : Session α ρ) : Request → Option Attempt
  | .data i =>
    if s.phase = .active ∧ s.wantsStop = false then
      s.outputs[i.val]?.map fun item =>
        ⟨i, item.shownPath s.archive, fault? (item.openData s.archive s.release.host).1⟩
    else none
  | _ => none

section

variable {s : Session α ρ} {i : OutputIndex} {a : Attempt}

/-- An attempt is made in an active run that nobody wants to cancel, at a position with an item, and
comes to what opening the item comes to. -/
theorem attempt?_eq_some (h : s.attempt? (.data i) = some a) :
    s.phase = .active ∧ s.wantsStop = false ∧
      ∃ item, s.outputs[i.val]? = some item ∧ a = ⟨i, item.shownPath s.archive,
        fault? (item.openData s.archive s.release.host).1⟩ := by
  simp only [attempt?] at h
  split at h
  · rename_i hopen
    obtain ⟨item, hat, rfl⟩ := Option.map_eq_some_iff.1 h
    exact ⟨hopen.1, hopen.2, item, hat, rfl⟩
  · cases h

/-- Requests for data are attempts while the run is active, at its positions, unless somebody wishes
to cancel. -/
theorem isSome_attempt?_iff : (s.attempt? (.data i)).isSome ↔
    s.phase = .active ∧ i.val < s.total ∧ s.wantsStop = false := by
  rw [← length_outputs]
  simp only [attempt?]
  by_cases hopen : s.phase = .active ∧ s.wantsStop = false
  · simp [hopen]
  · have hno : ¬(s.phase = .active ∧ i.val < s.outputs.length ∧ s.wantsStop = false) :=
      fun hall => hopen ⟨hall.1, hall.2.2⟩
    simpa [if_neg hopen] using hno

/-- What an attempt is answered: a source on record as failed is not tried, whatever else happens is
that the reporter is asked whether to cancel; any other is opened, and recorded if that fails. -/
theorem answer_of_attempt (hfits : s.phase = .active → s.total ≤ maxItems)
    (h : s.attempt? (.data i) = some a) :
    ((s.failures.get? i).isSome → s.answer (.data i) = (.ok .unavailable, s.asked)) ∧
    (s.failures.get? i = none →
      (∃ data, (s.answer (.data i)).1 = .ok data ∧ (data = .unavailable ↔ a.fault.isSome)) ∧
      (s.answer (.data i)).2.failures.entries = s.failures.entries ++ a.failure?.toList) := by
  obtain ⟨hphase, hgo, item, hat, rfl⟩ := attempt?_eq_some h
  have hanswer := answer_data hphase (hfits hphase) hat
  rw [hgo, if_neg Bool.false_ne_true] at hanswer
  constructor
  · intro hlog
    rw [hanswer, if_pos hlog]
  · intro hlog
    obtain ⟨hunavailable, hrecorded⟩ := s.asked.openSource_fault i item
    rw [hanswer, hlog, if_neg (by simp)]
    refine ⟨⟨_, rfl, ?_⟩, ?_⟩
    · simpa using hunavailable
    · simpa [Attempt.failure?, OutputItem.path_eq_shownPath] using hrecorded

/-- A request for data that is no attempt is refused or finds the run cancelled, and records
nothing. -/
theorem answer_of_no_attempt (hfits : s.phase = .active → s.total ≤ maxItems)
    (h : s.attempt? (.data i) = none) :
    (∃ e, (s.answer (.data i)).1 = .error e ∧
      ((∃ operation state, e = .invalidState operation state) ∨
        e = .indexOutOfRange i.val s.total ∨ e = .cancelled)) ∧
    (s.answer (.data i)).2.failures = s.failures := by
  by_cases hrefused : s.phase = .active → s.outputs[i.val]? = none
  · obtain ⟨e, hanswer, hcause⟩ := answer_data_refused hrefused hfits
    rw [hanswer]
    refine ⟨⟨e, rfl, ?_⟩, s.failures_release⟩
    rcases hcause with hstate | hrange
    · exact .inl hstate
    · exact .inr (.inl hrange)
  · obtain ⟨hphase, hat⟩ := Classical.not_imp.1 hrefused
    obtain ⟨item, hat⟩ := Option.ne_none_iff_exists'.1 hat
    have hstop : s.wantsStop = true := by
      by_contra hgo
      simp [attempt?, hphase, hgo, hat] at h
    rw [answer_data hphase (hfits hphase) hat, if_pos hstop]
    exact ⟨⟨.cancelled, rfl, .inr (.inr rfl)⟩, s.failures_asked⟩

/-- A request for data is never refused for what became of a source. -/
theorem error_of_data (hfits : s.phase = .active → s.total ≤ maxItems) {e : UpdateError}
    (he : (s.answer (.data i)).1 = .error e) :
    (∃ operation state, e = .invalidState operation state) ∨
      e = .indexOutOfRange i.val s.total ∨ e = .cancelled := by
  cases hattempt : s.attempt? (.data i) with
  | none =>
    obtain ⟨⟨e', hanswer, hcause⟩, -⟩ := answer_of_no_attempt hfits hattempt
    rw [hanswer] at he
    cases he
    exact hcause
  | some a =>
    obtain ⟨hunavailable, hopened⟩ := answer_of_attempt hfits hattempt
    cases hlog : s.failures.get? i with
    | none =>
      obtain ⟨⟨data, hanswer, -⟩, -⟩ := hopened hlog
      rw [hanswer] at he
      cases he
    | some f =>
      rw [hunavailable (by rw [hlog]; rfl)] at he
      cases he

/-- What one request adds to the failure log. -/
theorem failures_answer (hfits : s.phase = .active → s.total ≤ maxItems) (q : Request) :
    (s.answer q).2.failures.entries = s.failures.entries ++
      match s.attempt? q with
      | some a => if ∃ f ∈ s.failures.entries, f.index = a.index then [] else a.failure?.toList
      | none => [] := by
  by_cases hdata : ∃ i, q = .data i
  · obtain ⟨i, rfl⟩ := hdata
    cases h : s.attempt? (.data i) with
    | none => rw [(answer_of_no_attempt hfits h).2, List.append_nil]
    | some a =>
      have hindex : a.index = i := by
        obtain ⟨-, -, item, -, rfl⟩ := attempt?_eq_some h
        rfl
      obtain ⟨hknown, hfresh⟩ := answer_of_attempt hfits h
      simp only [hindex, ← FailureLog.isSome_get?_iff]
      cases hlog : s.failures.get? i with
      | none => simpa using (hfresh hlog).2
      | some f =>
        rw [hknown (by rw [hlog]; rfl), failures_asked]
        simp
  · have hdata := not_exists.1 hdata
    have hattempt : s.attempt? q = none := by
      cases q with
      | data i => exact absurd rfl (hdata i)
      | _ => rfl
    rw [(answer_of_ne_data hdata).2.1, hattempt, List.append_nil]

end

/-- The failure log of a run holds the first failures among its attempts: an attempt records one
exactly if its source would not open and no attempt at the position failed before. -/
theorem failures_eq_firstFailures {s now : Session α ρ} {moments : List (Moment α ρ)}
    (hs : s.Standing []) (hempty : s.failures.entries = []) (hrun : s.Run moments now) :
    now.failures.entries =
      firstFailures (moments.filterMap fun m => m.state.attempt? m.request) := by
  induction hrun with
  | begin => exact hempty
  | drift archive h react _ ih => exact ih
  | @ask moments now q hbefore ih =>
    have hstanding := standing_of_run hs hbefore
    rw [failures_answer hstanding.fits_of_active, List.filterMap_append, ih]
    cases hattempt : now.attempt? q with
    | none => simp [hattempt]
    | some a =>
      simp only [List.filterMap_cons, hattempt, List.filterMap_nil, firstFailures_concat,
        exists_mem_firstFailures]

/-- In every run, whatever is asked and however archive, files, streams and reporter change
meanwhile: the failure log holds the first failures among the attempts of the run, one for each
position at most, in the order of these attempts.  Requests for data are attempts exactly inside of
the window, at positions in range and while nobody wishes to cancel.  An attempt at a position that
failed before is answered as unavailable, and apart from the question whether to cancel nothing is
touched for it; any other is answered as unavailable exactly if its source does not open.  No
request for data is refused for a failure of its source. -/
theorem failures_of_run {archive : α} {h : Host} {items : List NewItem} {deletions : Deletions}
    {reporter : Option ρ} {s now : Session α ρ} {moments : List (Moment α ρ)}
    (hs : Session.start archive h items deletions reporter = .ok s) (hrun : s.Run moments now) :
    let n := deletions.kept + items.length
    let log := moments.map Moment.exchange
    let attempts := moments.filterMap fun m => m.state.attempt? m.request
    now.report.failures.entries = firstFailures attempts ∧
    (now.report.failures.entries.map (·.index)).Nodup ∧
    ∀ i : OutputIndex,
      ((now.attempt? (.data i)).isSome ↔
        Counted log ∧ ¬Ended log ∧ i.val < n ∧ now.wantsStop = false) ∧
      (∀ a, now.attempt? (.data i) = some a →
        ((∃ b ∈ attempts, b.FailsAt i) →
          now.answer (.data i) = (.ok .unavailable, now.asked)) ∧
        ((∀ b ∈ attempts, ¬b.FailsAt i) → ∃ data, (now.answer (.data i)).1 = .ok data ∧
          (data = .unavailable ↔ a.fault.isSome))) ∧
      ∀ e, (now.answer (.data i)).1 = .error e →
        (∃ operation state, e = .invalidState operation state) ∨
          e = .indexOutOfRange i.val n ∨ e = .cancelled := by
  intro n log attempts
  have hstanding : s.Standing [] := standing_start hs
  have hempty : s.failures.entries = [] := by
    obtain ⟨-, rfl⟩ := start_eq_ok_iff.1 hs
    rfl
  have hlog : now.failures.entries = firstFailures attempts :=
    failures_eq_firstFailures hstanding hempty hrun
  have htotal : now.total = n := by
    rw [total_of_run hrun]
    exact total_start hs
  obtain ⟨hwindow, hfits⟩ := active_of_run hs hrun
  have hknown : ∀ i, (now.failures.get? i).isSome ↔ ∃ b ∈ attempts, b.FailsAt i := by
    intro i
    rw [FailureLog.isSome_get?_iff, hlog]
    exact exists_mem_firstFailures attempts i
  refine ⟨hlog, ?_, fun i => ⟨?_, ?_, ?_⟩⟩
  · change (now.failures.entries.map (·.index)).Nodup
    rw [hlog]
    exact nodup_firstFailures attempts
  · rw [isSome_attempt?_iff, hwindow, htotal, and_assoc]
  · intro a ha
    obtain ⟨hunavailable, hopened⟩ := answer_of_attempt hfits ha
    refine ⟨fun hfailed => hunavailable ((hknown i).2 hfailed), fun hfresh => ?_⟩
    apply (hopened _).1
    rw [← Option.not_isSome_iff_eq_none, hknown]
    rintro ⟨b, hb, hfails⟩
    exact hfresh b hb hfails
  · intro e he
    rw [← htotal]
    exact error_of_data hfits he

/-- A lent stream that fails at one seek only: the first request for its data is recorded, the
second finds it on record although it would open by now. -/
theorem failures_of_run_one_bad_seek :
    let path : ItemPath := ⟨"a", by decide, (PathFault.of?_eq_none_iff.1 rfl).2⟩
    let stream : ByteStream :=
      { data := [1, 2], failingSeek := some 0, fault := ⟨.timedOut, "too slow"⟩ }
    let h : Host := ⟨⟨.empty, [], []⟩, [⟨stream, false⟩], default⟩
    let items : List NewItem := [⟨path, .stream ⟨0, 0, 2, default⟩⟩]
    ∃ (s now : Session EmptyArchive Statistics) (moments : List (Moment EmptyArchive Statistics)),
      Session.start {} h items (.empty 0) none = .ok s ∧ s.Run moments now ∧
      now.report.failures.entries = [⟨⟨0⟩, "a", "too slow", .timedOut⟩] ∧
      now.answer (.data ⟨0⟩) = (.ok .unavailable, now.asked) := by
  intro path stream h items
  let s : Session EmptyArchive Statistics :=
    { archive := {}, host := h, items, deletions := .empty 0, reporter := none }
  have hs : Session.start {} h items (.empty 0) none = .ok s := rfl
  have hrun := ((Run.begin (s := s)).ask .countItems).ask (.data ⟨0⟩)
  obtain ⟨hlog, -, hdata⟩ := failures_of_run hs hrun
  refine ⟨_, _, _, hs, hrun, hlog.trans (by decide +kernel), ?_⟩
  have hsome : (((s.answer .countItems).2.answer (.data ⟨0⟩)).2.attempt? (.data ⟨0⟩)).isSome := by
    decide +kernel
  obtain ⟨a, ha⟩ := Option.isSome_iff_exists.1 hsome
  exact ((hdata ⟨0⟩).2.1 a ha).1 (by decide +kernel)

end Session

end ArchiveUpdate
