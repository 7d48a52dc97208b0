import ArchiveUpdate.Proofs.RunHistory

/-!
# The answers about one output position belong together

An engine learns about an output position by four questions, and it copies stored data on the
strength of the answers.  While a run is active all four are answered for the same item
(`answers_belong_together`): for a stored item that is kept (`AnswersKept`) or for a new one
(`AnswersNew`), which has the properties of the stored item that it renames or those that its source
states about itself (`OwnFacts`).
-/

set_option autoImplicit false

namespace ArchiveUpdate

/-- What a disk object, a buffer or a lent stream states about itself. -/
structure OwnFacts where
  isDir : Bool
  size : Nat
  attributes : Nat
  created : Option Timestamp
  accessed : Option Timestamp
  modified : Option Timestamp

/-- The facts as answers; there are no others. -/
def OwnFacts.property (f : OwnFacts) : PropertyKind → PropertyValue
  | .isDir => .bool f.isDir
  | .size => .uint64 f.size
  | .attributes => .uint32 f.attributes
  | .creationTime => .ofOption .time f.created
  | .accessTime => .ofOption .time f.accessed
  | .modificationTime => .ofOption .time f.modified
  | .path | .isAnti | .other _ => .empty

namespace ItemSource

/-- What a source states about itself, unless it is a stored item.  Data that a caller hands over
came into being when it was handed over. -/
def facts? : ItemSource → Option OwnFacts
  | disk d => some ⟨d.isDir, d.size, d.attributes, d.created, d.accessed, d.modified⟩
  | buffer b => some ⟨false, b.data.length, Attributes.normal, b.created, b.created, b.created⟩
  | stream s => some ⟨false, s.size, Attributes.normal, s.created, s.created, s.created⟩
  | renamed _ => none

/-- A source with facts of its own answers by them, whatever the archive is. -/
theorem property_of_facts {α : Type} [Archive α] {source : ItemSource} {facts : OwnFacts}
    (h : source.facts? = some facts) (archive : α) (kind : PropertyKind) :
    source.property archive kind = facts.property kind := by
  cases source with
  | renamed j => cases h
  | _ =>
    cases h
    cases kind <;> rfl

/-- A source with facts of its own is no stored item. -/
theorem renamed?_of_facts {source : ItemSource} {facts : OwnFacts}
    (h : source.facts? = some facts) : source.renamed? = none := by
  cases source with
  | renamed j => cases h
  | _ => rfl

end ItemSource

/-- All but the path and the anti-item mark of a new item is answered by its source. -/
theorem NewItem.property_of_ne {α : Type} [Archive α] (item : NewItem) (archive : α)
    {kind : PropertyKind} (hpath : kind ≠ .path) (hanti : kind ≠ .isAnti) :
    item.property archive kind = item.source.property archive kind := by
  cases kind with
  | path => exact absurd rfl hpath
  | isAnti => exact absurd rfl hanti
  | _ => rfl

namespace Session

variable {α ρ : Type} [Archive α] [Reporter ρ]

/-- The answers for an output position are those for a stored item that is kept. -/
structure AnswersKept (s : Session α ρ) (i : OutputIndex) (j : StoredIndex) : Prop where
  property : ∀ kind ≠ .isAnti,
    (s.answer (.property i kind)).1 = .ok (Archive.property s.archive j kind)
  isAnti : (s.answer (.property i .isAnti)).1 = .ok (.bool false)
  hasNewData : (s.answer (.hasNewData i)).1 = .ok false
  hasNewProperties : (s.answer (.hasNewProperties i)).1 = .ok false
  storedIndex : (s.answer (.storedIndex i)).1 = .ok (some j)

/-- The answers for an output position are those for a new item. -/
structure AnswersNew (s : Session α ρ) (i : OutputIndex) (item : NewItem) : Prop where
  path : (s.answer (.property i .path)).1 = .ok (.string item.path.text)
  isAnti : (s.answer (.property i .isAnti)).1 = .ok (.bool false)
  hasNewProperties : (s.answer (.hasNewProperties i)).1 = .ok true
  renamed : ∀ j, item.source = .renamed j →
    (∀ kind, kind ≠ .path → kind ≠ .isAnti →
      (s.answer (.property i kind)).1 = .ok (Archive.property s.archive j kind)) ∧
    (s.answer (.hasNewData i)).1 = .ok false ∧ (s.answer (.storedIndex i)).1 = .ok (some j)
  own : ∀ facts, item.source.facts? = some facts →
    (∀ kind, kind ≠ .path → kind ≠ .isAnti →
      (s.answer (.property i kind)).1 = .ok (facts.property kind)) ∧
    (s.answer (.hasNewData i)).1 = .ok true ∧ (s.answer (.storedIndex i)).1 = .ok none

section

variable {s : Session α ρ} {i : OutputIndex}

/-- The answers about a kept item are those that its stored item asks for. -/
theorem answersKept (hserves : s.Serves s.outputs) {j : StoredIndex}
    (hat : s.outputs[i.val]? = some (.kept j)) : s.AnswersKept i j := by
  have hplace : ∀ {β : Type} (f : OutputItem → β), answerAt s.outputs i f = .ok (f (.kept j)) :=
    fun f => answerAt_eq_ok_iff.2 ⟨_, hat, rfl⟩
  refine ⟨?_, ?_, ?_, ?_, ?_⟩
  · intro kind hanti
    rw [hserves.property, hplace, OutputItem.property, if_neg hanti]
  · rw [hserves.property, hplace]
    rfl
  · rw [hserves.hasNewData, hplace]
    rfl
  · rw [hserves.hasNewProperties, hplace]
    rfl
  · rw [hserves.storedIndex, hplace]
    rfl

/-- The answers about a new item are those that its source asks for. -/
theorem answersNew (hserves : s.Serves s.outputs) {item : NewItem}
    (hat : s.outputs[i.val]? = some (.added item)) : s.AnswersNew i item := by
  have hplace : ∀ {β : Type} (f : OutputItem → β),
      answerAt s.outputs i f = .ok (f (.added item)) :=
    fun f => answerAt_eq_ok_iff.2 ⟨_, hat, rfl⟩
  -- but for its path and its not being a removal mark, the item answers as its source does
  have hsource : ∀ kind, kind ≠ .path → kind ≠ .isAnti →
      (s.answer (.property i kind)).1 = .ok (item.source.property s.archive kind) := by
    intro kind hpath hanti
    rw [hserves.property, hplace, ← item.property_of_ne s.archive hpath hanti]
    rfl
  have hdata : (s.answer (.hasNewData i)).1 = .ok item.source.renamed?.isNone := by
    rw [hserves.hasNewData, hplace]
    rfl
  have hstored : (s.answer (.storedIndex i)).1 = .ok item.source.renamed? := by
    rw [hserves.storedIndex, hplace]
    rfl
  refine ⟨?_, ?_, ?_, ?_, ?_⟩
  · rw [hserves.property, hplace]
    rfl
  · rw [hserves.property, hplace]
    rfl
  · rw [hserves.hasNewProperties, hplace]
    rfl
  · intro j hrenamed
    rw [hrenamed] at hsource hdata hstored
    exact ⟨hsource, hdata, hstored⟩
  · intro facts hfacts
    rw [ItemSource.renamed?_of_facts hfacts] at hdata hstored
    refine ⟨?_, hdata, hstored⟩
    intro kind hpath hanti
    rw [hsource kind hpath hanti, ItemSource.property_of_facts hfacts]

/-- Data is new exactly where no stored item provides it. -/
theorem hasNewData_iff (hserves : s.Serves s.outputs) (i : OutputIndex) :
    (s.answer (.hasNewData i)).1 = .ok true ↔ (s.answer (.storedIndex i)).1 = .ok none := by
  rw [hserves.hasNewData, hserves.storedIndex, answerAt_eq_ok_iff, answerAt_eq_ok_iff]
  have hitem : ∀ item : OutputItem, item.hasNewData = true ↔ item.stored? = none := by
    intro item
    cases item with
    | kept j => exact ⟨nofun, nofun⟩
    | added new => exact Option.isNone_iff_eq_none
  simp only [hitem]

end

/-- In every run over any archive, marks and new items, however its surroundings change: while the
run is active there is a numbering, and at each of its positions all questions are answered for the
item that the numbering has there.  That is a kept stored item with the stored item's properties, or
a new item with its own path, which has either the data and all other properties of the stored item
that it renames or new data and the properties that its source states about itself.  In any case
data is new exactly where no stored item is behind the position. -/
theorem answers_belong_together {archive : α} {h : Host} {items : List NewItem}
    {deletions : Deletions} {reporter : Option ρ} {s now : Session α ρ}
    {moments : List (Moment α ρ)}
    (hs : Session.start archive h items deletions reporter = .ok s) (hrun : s.Run moments now)
    (hcounted : Counted (moments.map Moment.exchange))
    (hgoing : ¬Ended (moments.map Moment.exchange)) :
    ∃ layout, Layout.of deletions items.length = .ok layout ∧
      ∀ i : OutputIndex, i.val < deletions.kept + items.length →
        (match layout.resolve i with
          | .ok (.kept j) => now.AnswersKept i j
          | .ok (.added k) => ∃ item, items[k]? = some item ∧ now.AnswersNew i item
          | .error _ => False) ∧
        ((now.answer (.hasNewData i)).1 = .ok true ↔
          (now.answer (.storedIndex i)).1 = .ok none) := by
  obtain ⟨-, hbeginning⟩ := start_eq_ok_iff.1 hs
  obtain ⟨hitems, hmarks⟩ : now.items = items ∧ now.deletions = deletions := by
    have hsame := items_of_run hrun
    rw [hbeginning] at hsame
    exact hsame
  have hactive : now.phase = .active := (active_of_run hs hrun).1.2 ⟨hcounted, hgoing⟩
  have hfits : now.total ≤ maxItems := (active_of_run hs hrun).2 hactive
  have hserves : now.Serves now.outputs := serves_of_active hactive hfits
  cases hl : Layout.of deletions items.length with
  | error e =>
    have hmany := (Layout.of_eq_error hl).1
    rw [total, hitems, hmarks] at hfits
    exact absurd hfits (Nat.not_le.2 hmany)
  | ok layout =>
    refine ⟨layout, rfl, fun i hi => ⟨?_, hasNewData_iff hserves i⟩⟩
    have houtput := now.getElem?_outputs i.val
    rw [hitems, hmarks] at houtput
    cases hp : (deletions.placements items.length)[i.val]? with
    | none =>
      have hout := Deletions.getElem?_placements_eq_none.1 hp
      omega
    | some place =>
      rw [(Layout.resolve_eq_ok_iff hl).2 hp]
      rw [hp] at houtput
      cases place with
      | kept j => exact answersKept hserves houtput
      | added k =>
        have hk : k < items.length := (Deletions.getElem?_placements_added.1 hp).1
        have hitem : items[k]? = some items[k] := List.getElem?_eq_getElem hk
        refine ⟨items[k], hitem, answersNew hserves ?_⟩
        rw [houtput]
        show items[k]?.map OutputItem.added = some (.added items[k])
        rw [hitem]
        rfl

/-- The only stored item is marked and comes back under another path: its data is not new. -/
theorem answers_belong_together_renamed :
    let archive : MemoryArchive := ⟨[⟨"a", some [1], default, 32⟩], 0⟩
    let h : Host := ⟨⟨.empty, [], []⟩, [], default⟩
    let marks : Deletions := ⟨1, [0], by decide, by decide⟩
    let path : ItemPath := ⟨"b", by decide, (PathFault.of?_eq_none_iff.1 rfl).2⟩
    ∃ (s now : Session MemoryArchive Statistics)
      (moments : List (Moment MemoryArchive Statistics)),
      Session.start archive h [⟨path, .renamed ⟨0⟩⟩] marks none = .ok s ∧ s.Run moments now ∧
      Counted (moments.map Moment.exchange) ∧ ¬Ended (moments.map Moment.exchange) ∧
      now.AnswersNew ⟨0⟩ ⟨path, .renamed ⟨0⟩⟩ := by
  intro archive h marks path
  let s : Session MemoryArchive Statistics :=
    { archive, host := h, items := [⟨path, .renamed ⟨0⟩⟩], deletions := marks, reporter := none }
  have hs : Session.start archive h [⟨path, .renamed ⟨0⟩⟩] marks none = .ok s := rfl
  have hrun := (Run.begin (s := s)).ask .countItems
  obtain ⟨hcounted, hgoing⟩ := (active_of_run hs hrun).1.1 rfl
  obtain ⟨layout, hl, hanswers⟩ := answers_belong_together hs hrun hcounted hgoing
  have hnew := (hanswers ⟨0⟩ (by decide)).1
  cases hl
  obtain ⟨item, hitem, hnew⟩ := hnew
  cases hitem
  exact ⟨s, _, _, hs, hrun, hcounted, hgoing, hnew⟩

end Session

end ArchiveUpdate
