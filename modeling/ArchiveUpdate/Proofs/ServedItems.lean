import ArchiveUpdate.Proofs.OutputNumbering
import ArchiveUpdate.Proofs.RunCourse

/-!
# The items that a run serves

While a run is active, the item at an output position is the one at that place of a list: the
survivors of the stored archive and behind them the new items (`Session.outputs`).  `Serves` says
what this means for the engine: each question about a position is answered for the item at that
place, and the data that is handed out there is that item's.
-/

set_option autoImplicit false

namespace ArchiveUpdate

/-- Where no value is taken from two elements of a list, a value tells the position. -/
theorem eq_of_nodup_filterMap {β γ : Type} {l : List β} {f : β → Option γ}
    (hnodup : (l.filterMap f).Nodup) {i i' : Nat} {b b' : β} {c : γ} (hi : l[i]? = some b)
    (hi' : l[i']? = some b') (hb : f b = some c) (hb' : f b' = some c) : i = i' := by
  obtain ⟨hlt, rfl⟩ := List.getElem?_eq_some_iff.1 hi
  obtain ⟨hlt', rfl⟩ := List.getElem?_eq_some_iff.1 hi'
  have hpair := List.pairwise_iff_getElem.1 (List.pairwise_filterMap.1 hnodup)
  rcases Nat.lt_trichotomy i i' with h | h | h
  · exact absurd rfl (hpair i i' hlt hlt' h c hb c hb')
  · exact h
  · exact absurd rfl (hpair i' i hlt' hlt h c hb' c hb)

namespace Session

variable {α ρ : Type}

/-- The items of the finished archive in the order of their output positions. -/
def outputs (s : Session α ρ) : List OutputItem :=
  s.deletions.survivors.map .kept ++ s.items.map .added

/-- The finished archive has as many items as are kept and added. -/
theorem length_outputs (s : Session α ρ) : s.outputs.length = s.total := by
  rw [outputs, List.length_append, List.length_map, List.length_map,
    Deletions.length_survivors, total]

/-- No course of events changes which items are in the finished archive. -/
theorem outputs_after [Archive α] [Reporter ρ] (s : Session α ρ) (course : List RunEvent) :
    (s.after course).outputs = s.outputs := by
  rw [outputs, outputs, (s.items_after course).1, (s.items_after course).2]

/-- The item that a placement stands for. -/
theorem getElem?_outputs (s : Session α ρ) (i : Nat) :
    s.outputs[i]? = match (s.deletions.placements s.items.length)[i]? with
      | some (.kept stored) => some (.kept stored)
      | some (.added position) => s.items[position]?.map .added
      | none => none := by
  rw [outputs, Deletions.placements, List.getElem?_append, List.getElem?_append, List.length_map,
    List.length_map]
  by_cases hi : i < s.deletions.survivors.length
  · simp only [if_pos hi, List.getElem?_map]
    cases s.deletions.survivors[i]? <;> rfl
  · simp only [if_neg hi, List.getElem?_map]
    by_cases hnew : i - s.deletions.survivors.length < s.items.length
    · simp [hnew]
    · simp [hnew]

/-- Outside the window every item is withheld, and the phase is named. -/
theorem item_of_inactive {s : Session α ρ} (hphase : s.phase ≠ .active) (i : OutputIndex)
    (operation : String) : s.item i operation = .error (.invalidState operation s.phase.label) := by
  cases h : s.phase with
  | active => exact absurd h hphase
  | uninitialized => simp [item, h]
  | finalizing => simp [item, h]

/-- In the window the item at a position is the one that the finished archive has there. -/
theorem item_of_active {s : Session α ρ} (hphase : s.phase = .active)
    (hfits : s.total ≤ maxItems) (i : OutputIndex) (operation : String) :
    s.item i operation = match s.outputs[i.val]? with
      | some item => .ok item
      | none => .error (.indexOutOfRange i.val s.total) := by
  cases hl : Layout.of s.deletions s.items.length with
  | error e =>
    have hmany := (Layout.of_eq_error hl).1
    exact absurd hfits (Nat.not_le.2 hmany)
  | ok layout =>
    have htotal : layout.total = s.total := (Layout.of_eq_ok hl).2.2.2
    simp only [item, hphase, hl, Layout.resolve_eq, (Layout.of_eq_ok hl).2.2.1, htotal,
      getElem?_outputs]
    cases hp : (s.deletions.placements s.items.length)[i.val]? with
    | none => rfl
    | some p =>
      cases p with
      | kept stored => rfl
      | added position =>
        have hposition : position < s.items.length :=
          (Deletions.getElem?_placements_added.1 hp).1
        simp [List.getElem?_eq_getElem hposition]

/-- The answer about the item at an output position of a list. -/
def answerAt {β : Type} (outputs : List OutputItem) (i : OutputIndex) (f : OutputItem → β) :
    Except UpdateError β :=
  match outputs[i.val]? with
  | some item => .ok (f item)
  | none => .error (.indexOutOfRange i.val outputs.length)

/-- There is an answer at a position exactly if there is an item, and it is the answer about that
item. -/
theorem answerAt_eq_ok_iff {β : Type} {outputs : List OutputItem} {i : OutputIndex}
    {f : OutputItem → β} {b : β} :
    answerAt outputs i f = .ok b ↔ ∃ item, outputs[i.val]? = some item ∧ f item = b := by
  unfold answerAt
  cases outputs[i.val]? <;> simp

variable [Archive α] [Reporter ρ]

/-- A request for the data of an item that is at an output position: unless the run is cancelled or
the source failed to open before, the source is opened and what comes of it is the answer. -/
structure HandsOut (s : Session α ρ) (i : OutputIndex) (item : OutputItem) : Prop where
  cancelled : s.release.cancelRequested.1 = true → (s.answer (.data i)).1 = .error .cancelled
  failed : s.release.cancelRequested.1 = false → (s.failures.get? i).isSome →
    (s.answer (.data i)).1 = .ok .unavailable
  opened : s.release.cancelRequested.1 = false → s.failures.get? i = none →
    match (item.openData s.archive s.release.host).1 with
    | .ok (some source) =>
      (s.answer (.data i)).1 = .ok .stream ∧ (s.answer (.data i)).2.reading = some source
    | .ok none => (s.answer (.data i)).1 = .ok .noData
    | .error _ => (s.answer (.data i)).1 = .ok .unavailable

/-- A run answers for these items at the output positions, in this order. -/
structure Serves (s : Session α ρ) (outputs : List OutputItem) : Prop where
  property : ∀ i kind,
    (s.answer (.property i kind)).1 = answerAt outputs i (·.property s.archive kind)
  hasNewData : ∀ i, (s.answer (.hasNewData i)).1 = answerAt outputs i (·.hasNewData)
  hasNewProperties : ∀ i,
    (s.answer (.hasNewProperties i)).1 = answerAt outputs i (·.hasNewProperties)
  storedIndex : ∀ i, (s.answer (.storedIndex i)).1 = answerAt outputs i (·.stored?)
  data : ∀ i item, outputs[i.val]? = some item → s.HandsOut i item
  noData : ∀ i, outputs[i.val]? = none →
    (s.answer (.data i)).1 = .error (.indexOutOfRange i.val outputs.length)

/-- A request for the data of an item that is not withheld hands out what its source gives. -/
theorem handsOut_of_item {s : Session α ρ} {i : OutputIndex} {item : OutputItem}
    (hitem : s.release.item i "open item data" = .ok item) : s.HandsOut i item := by
  have hanswer : s.answer (.data i) = s.release.data i := rfl
  have hfailures := s.failures_release
  rcases s.release.data_cases i with
    ⟨e, herror, -⟩ | ⟨item', hitem', ⟨hstop, h⟩ | ⟨hgo, hlog, h⟩ | ⟨hgo, hlog, h⟩⟩
  · rw [hitem] at herror
    cases herror
  · refine ⟨fun _ => by rw [hanswer, h], fun hgo => ?_, fun hgo => ?_⟩ <;>
      rw [hstop] at hgo <;> cases hgo
  · rw [hfailures] at hlog
    refine ⟨fun hstop => ?_, fun _ _ => by rw [hanswer, h], fun _ hnone => ?_⟩
    · rw [hgo] at hstop
      cases hstop
    · rw [hnone] at hlog
      cases hlog
  · rw [hitem] at hitem'
    cases hitem'
    rw [hfailures] at hlog
    refine ⟨fun hstop => ?_, fun _ hsome => ?_, fun _ _ => ?_⟩
    · rw [hgo] at hstop
      cases hstop
    · rw [hlog] at hsome
      cases hsome
    · obtain ⟨reporter, hasked⟩ := s.release.cancelRequested_eq
      have hopened := openSource_opened s.release.cancelRequested.2 i item
      have hsource : item.openData s.release.cancelRequested.2.archive
          s.release.cancelRequested.2.host = item.openData s.archive s.release.host := by
        rw [hasked, ← s.archive_release]
      rw [hsource] at hopened
      rw [hanswer, h]
      split <;> simp_all

/-- In the window a run answers for the items of the finished archive. -/
theorem serves_of_active {s : Session α ρ} (hphase : s.phase = .active)
    (hfits : s.total ≤ maxItems) : s.Serves s.outputs := by
  have hplace : ∀ (i : OutputIndex) (operation : String),
      s.release.item i operation = match s.outputs[i.val]? with
        | some item => .ok item
        | none => .error (.indexOutOfRange i.val s.outputs.length) := by
    intro i operation
    rw [item_release, item_of_active hphase hfits, length_outputs]
  have hmap : ∀ {β : Type} (i : OutputIndex) (operation : String) (f : OutputItem → β),
      (s.release.item i operation).map f = answerAt s.outputs i f := by
    intro β i operation f
    rw [hplace, answerAt]
    cases s.outputs[i.val]? <;> rfl
  refine ⟨?_, ?_, ?_, ?_, ?_, ?_⟩
  · intro i kind
    rw [← hmap i "query item properties", ← s.archive_release]
    rfl
  · intro i
    exact hmap i _ _
  · intro i
    exact hmap i _ _
  · intro i
    exact hmap i _ _
  · intro i item hat
    apply handsOut_of_item
    rw [hplace, hat]
  · intro i hat
    simp only [answer, data, hplace, hat]

end Session

end ArchiveUpdate
