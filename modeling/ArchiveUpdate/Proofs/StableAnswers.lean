import ArchiveUpdate.Proofs.EngineRuns
import ArchiveUpdate.Proofs.StatisticsView

/-!
# Answers that stay the same

While a run is active the same question about an item gets the same answer, whatever was asked in
between and however the files and streams have changed: no query reads what a request can change.
Opening the data of stored items does leave a mark on an archive of decoded items, which counts how
often that happens.  It counts exactly the requests that hand out the data of a stored item
(`same_answers_and_openings_counted`).
-/

set_option autoImplicit false

namespace ArchiveUpdate

section

variable {α ρ : Type} [Archive α] [Reporter ρ]

/-- The two states answer every query about an item in the same way. -/
structure Session.SameAnswers (s s' : Session α ρ) : Prop where
  property : ∀ i kind, (s'.answer (.property i kind)).1 = (s.answer (.property i kind)).1
  hasNewData : ∀ i, (s'.answer (.hasNewData i)).1 = (s.answer (.hasNewData i)).1
  hasNewProperties : ∀ i,
    (s'.answer (.hasNewProperties i)).1 = (s.answer (.hasNewProperties i)).1
  storedIndex : ∀ i, (s'.answer (.storedIndex i)).1 = (s.answer (.storedIndex i)).1

/-- A request for data was answered with a stream. -/
def handsOutStream : Except UpdateError DataAnswer → Bool
  | .ok .stream => true
  | _ => false

/-- A stored item was named. -/
def namesStored : Except UpdateError (Option StoredIndex) → Bool
  | .ok (some _) => true
  | _ => false

/-- The request is for the data at a position behind which there is a stored item, and is answered
with a stream. -/
def Moment.opensStored (m : Moment α ρ) : Bool :=
  match m.request with
  | .data i => handsOutStream (m.state.answer (.data i)).1 &&
      namesStored (m.state.answer (.storedIndex i)).1
  | _ => false

/-- Only a request for data opens a stored item. -/
theorem Moment.opensStored_of_ne {s : Session α ρ} {q : Request} (hq : ∀ i, q ≠ .data i) :
    opensStored ⟨s, q⟩ = false := by
  cases q with
  | data i => exact absurd rfl (hq i)
  | _ => rfl

namespace Session

/-- Two states of one run over a steady archive answer alike if both are in the window. -/
theorem sameAnswers_after {s : Session α ρ} (hs : s.Standing [])
    (hsteady : Archive.Steady s.archive) {course course' : List RunEvent}
    (hcounted : Counted (s.exchanges course)) (hgoing : ¬Ended (s.exchanges course))
    (hcounted' : Counted (s.exchanges course')) (hgoing' : ¬Ended (s.exchanges course')) :
    (s.after course).SameAnswers (s.after course') := by
  have hserves := serves_in_window (standing_after hs course) hcounted hgoing
  have hserves' := serves_in_window (standing_after hs course') hcounted' hgoing'
  rw [outputs_after] at hserves hserves'
  obtain ⟨is, harchive⟩ := s.archive_after course
  obtain ⟨is', harchive'⟩ := s.archive_after course'
  refine ⟨?_, ?_, ?_, ?_⟩
  · intro i kind
    rw [hserves.property, hserves'.property, harchive, harchive']
    simp only [OutputItem.property_opening hsteady]
  · intro i
    rw [hserves.hasNewData, hserves'.hasNewData]
  · intro i
    rw [hserves.hasNewProperties, hserves'.hasNewProperties]
  · intro i
    rw [hserves.storedIndex, hserves'.storedIndex]

/-- Where no data is asked for, the archive stays as it is. -/
theorem archive_after_of_no_data {s : Session α ρ} {course : List RunEvent}
    (hnone : ∀ e ∈ s.exchanges course, ∀ i, e.request ≠ .data i) :
    (s.after course).archive = s.archive := by
  induction course using List.reverseRecOn with
  | nil => rfl
  | append_singleton course event ih =>
    simp only [exchanges_append, List.mem_append, or_imp, forall_and] at hnone
    rw [after_concat, ← ih hnone.1]
    cases event with
    | world h => rfl
    | ask q => exact (answer_of_ne_data (hnone.2 _ (List.mem_singleton_self _))).1

omit [Archive α] [Reporter ρ] in
/-- An item that is there for one operation is there for any other. -/
theorem item_eq_ok_of {s : Session α ρ} {i : OutputIndex} {operation : String} {item : OutputItem}
    (h : s.item i operation = .ok item) (operation' : String) :
    s.item i operation' = .ok item := by
  unfold Session.item at h ⊢
  split at h
  · cases h
  · cases h
  · exact h

end Session

end

/-- A stored item behind a position is opened as it stands in the archive. -/
theorem OutputItem.openData_of_stored {α : Type} [Archive α] {item : OutputItem} {j : StoredIndex}
    (hstored : item.stored? = some j) (a : α) (h : Host) :
    (item.openData a h).1 = (Archive.openItem a j).1.map fun content =>
      some (.settled content) := by
  cases item with
  | kept j' =>
    cases hstored
    rfl
  | added new =>
    obtain ⟨path, source⟩ := new
    cases source with
    | renamed j' =>
      cases hstored
      rfl
    | _ => cases hstored

namespace Session

variable {ρ : Type} [Reporter ρ]

/-- An archive of decoded items counts an opening exactly if it hands out the data of one. -/
theorem opened_openSource (s : Session MemoryArchive ρ) (i : OutputIndex) (item : OutputItem) :
    (s.openSource i item).2.archive.opened = s.archive.opened +
      if handsOutStream (.ok (s.openSource i item).1) && namesStored (.ok item.stored?) then 1
      else 0 := by
  rw [archive_openSource]
  cases hstored : item.stored? with
  | none =>
    have hnone : namesStored (.ok none) = false := rfl
    rw [hnone, Bool.and_false]
    rfl
  | some j =>
    have hopened := s.openSource_opened i item
    rw [OutputItem.openData_of_stored hstored] at hopened
    simp only [Option.toList_some, Archive.opening, List.foldl_cons, List.foldl_nil,
      Archive.openItem] at hopened ⊢
    cases hentry : s.archive.entries[j.val]? with
    | none =>
      simp only [hentry, Except.map] at hopened ⊢
      rw [hopened]
      rfl
    | some entry =>
      simp only [hentry, Except.map] at hopened ⊢
      rw [hopened.1]
      rfl

/-- A request adds one opening of the archive if it opens a stored item, and none otherwise. -/
theorem opened_answer (s : Session MemoryArchive ρ) (q : Request) :
    (s.answer q).2.archive.opened =
      s.archive.opened + if Moment.opensStored ⟨s, q⟩ then 1 else 0 := by
  by_cases hdata : ∃ i, q = .data i
  · obtain ⟨i, rfl⟩ := hdata
    have hanswer : s.answer (.data i) = s.release.data i := rfl
    simp only [Moment.opensStored, hanswer]
    rcases s.release.data_cases i with
      ⟨e, -, h⟩ | ⟨item, hitem, ⟨-, h⟩ | ⟨-, -, h⟩ | ⟨-, -, h⟩⟩
    · rw [h, s.archive_release]
      rfl
    · rw [h, cancelRequested_release]
      exact congrArg MemoryArchive.opened s.archive_asked
    · rw [h, cancelRequested_release]
      exact congrArg MemoryArchive.opened s.archive_asked
    · have hstored : (s.answer (.storedIndex i)).1 = .ok item.stored? := by
        have hquery := item_eq_ok_of hitem "query item state"
        simp only [answer, storedIndex, hquery]
        rfl
      rw [h, hstored, opened_openSource, cancelRequested_release, archive_asked]
  · have hother := not_exists.1 hdata
    rw [Moment.opensStored_of_ne hother, (answer_of_ne_data hother).1]
    rfl

/-- The archive counts the requests of a course that open a stored item. -/
theorem opened_after (s : Session MemoryArchive ρ) (course : List RunEvent) :
    (s.after course).archive.opened =
      s.archive.opened + (s.moments course).countP Moment.opensStored := by
  induction course using List.reverseRecOn with
  | nil => rfl
  | append_singleton course event ih =>
    rw [after_concat, moments_append, List.countP_append]
    cases event with
    | world h => exact ih
    | ask q =>
      have hstep := (s.after course).opened_answer q
      rw [ih, Nat.add_assoc] at hstep
      rw [moments, moments, List.countP_singleton]
      exact hstep

/-- In every run over an archive of decoded items, whatever is asked and however the files and
streams change: any two moments of the window have the same answers to queries about items.  From
any moment to any later one the archive counts as many openings as there were requests in between
that were answered with a stream at a position behind which there is a stored item.  An engine that
asks for no data opens nothing. -/
theorem same_answers_and_openings_counted {archive : MemoryArchive} {h : Host}
    {items : List NewItem} {deletions : Deletions} {reporter : Option ρ}
    {s : Session MemoryArchive ρ}
    (hs : Session.start archive h items deletions reporter = .ok s) :
    (∀ course course', Counted (s.exchanges course) → ¬Ended (s.exchanges course) →
      Counted (s.exchanges course') → ¬Ended (s.exchanges course') →
        (s.after course).SameAnswers (s.after course')) ∧
    (∀ course more, (s.after (course ++ more)).archive.opened =
      (s.after course).archive.opened +
        ((s.after course).moments more).countP Moment.opensStored) ∧
    ∀ {β : Type} (engine : Engine β),
      (∀ e ∈ engine.exchanges s, ∀ i, e.request ≠ .data i) →
        (engine.run s).2.archive.opened = archive.opened := by
  have harchive : s.archive = archive := by
    obtain ⟨-, rfl⟩ := start_eq_ok_iff.1 hs
    rfl
  refine ⟨?_, ?_, ?_⟩
  · intro course course'
    exact sameAnswers_after (standing_start hs) (MemoryArchive.steady s.archive)
  · intro course more
    rw [after, List.foldl_append]
    exact opened_after _ more
  · intro β engine hnone
    obtain ⟨course, hafter, hlog⟩ := engine.run_is_course s
    rw [hlog] at hnone
    rw [hafter, archive_after_of_no_data hnone, harchive]

/-- A stored item is renamed and a buffer added.  The data of both is handed out, and that of the
stored item once more when the streams have become others: its position answers as before, and the
archive has counted two openings. -/
theorem same_answers_and_openings_counted_renamed :
    let archive : MemoryArchive := ⟨[⟨"a", some [1], default, 32⟩], 0⟩
    let h : Host := ⟨⟨.empty, [], []⟩, [], default⟩
    let h' : Host := ⟨⟨.empty, [], []⟩, [⟨{ data := [2] }, false⟩], default⟩
    let marks : Deletions := ⟨1, [0], by decide, by decide⟩
    let items : List NewItem :=
      [⟨⟨"b", by decide, (PathFault.of?_eq_none_iff.1 rfl).2⟩, .renamed ⟨0⟩⟩,
        ⟨⟨"c", by decide, (PathFault.of?_eq_none_iff.1 rfl).2⟩, .buffer ⟨[3], default⟩⟩]
    let copies : List RunEvent :=
      [.ask (.data ⟨0⟩), .ask (.data ⟨1⟩), .world h', .ask (.data ⟨0⟩)]
    ∃ s : Session MemoryArchive Statistics, Session.start archive h items marks none = .ok s ∧
      (s.after [.ask .countItems]).SameAnswers (s.after (.ask .countItems :: copies)) ∧
      (s.after (.ask .countItems :: copies)).archive.opened = 2 := by
  intro archive h h' marks items copies
  let s : Session MemoryArchive Statistics :=
    { archive, host := h, items, deletions := marks, reporter := none }
  have hs : Session.start archive h items marks none = .ok s := rfl
  obtain ⟨hsame, hcount, -⟩ := same_answers_and_openings_counted hs
  have hwindow : ∀ course, (s.after course).phase = .active →
      Counted (s.exchanges course) ∧ ¬Ended (s.exchanges course) := by
    intro course hphase
    rw [(standing_after (standing_start hs) course).phase] at hphase
    exact phaseOf_eq_active_iff.1 hphase
  obtain ⟨hcounted, hgoing⟩ := hwindow [.ask .countItems] rfl
  obtain ⟨hcounted', hgoing'⟩ := hwindow (.ask .countItems :: copies) (by decide +kernel)
  refine ⟨s, hs, hsame _ _ hcounted hgoing hcounted' hgoing', ?_⟩
  have htwo : ((s.after [.ask .countItems]).moments copies).countP Moment.opensStored = 2 := by
    decide +kernel
  have hnone : (s.after [.ask .countItems]).archive.opened = 0 := by decide
  have hlist : RunEvent.ask .countItems :: copies = [.ask .countItems] ++ copies := rfl
  rw [hlist, hcount, htwo, hnone]

end Session

end ArchiveUpdate
