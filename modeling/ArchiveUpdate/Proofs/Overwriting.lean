import ArchiveUpdate.Proofs.EngineRuns

/-!
# New items overwrite stored ones of the same path

In a run that overwrites, a stored item whose path is the path of some new item gives way to it: the
run marks what the caller marked and the `Shadowed` items, and keeps the others
(`overwrites_same_paths`).  The marks of the run are its own; those of the updater stay as the
caller made them.
-/

set_option autoImplicit false

namespace ArchiveUpdate

namespace Session

variable {α ρ : Type} [Archive α] [Reporter ρ]

/-- The answers for an output position are that a stored item is kept there. -/
structure KeepsAt (s : Session α ρ) (i : OutputIndex) (j : StoredIndex) : Prop where
  storedIndex : (s.answer (.storedIndex i)).1 = .ok (some j)
  hasNewProperties : (s.answer (.hasNewProperties i)).1 = .ok false

omit [Archive α] [Reporter ρ] in
/-- A run serves a stored item as kept if the item survives the marks. -/
theorem kept_mem_outputs {s : Session α ρ} {j : StoredIndex} :
    .kept j ∈ s.outputs ↔ j ∈ s.deletions.survivors := by
  simp [outputs]

/-- The answers of a run show a kept item where it has one. -/
theorem keepsAt_iff {s : Session α ρ} (hserves : s.Serves s.outputs) {i : OutputIndex}
    {j : StoredIndex} : s.KeepsAt i j ↔ s.outputs[i.val]? = some (.kept j) := by
  constructor
  · intro hkeeps
    have hstored := hkeeps.storedIndex
    have hproperties := hkeeps.hasNewProperties
    rw [hserves.storedIndex, answerAt_eq_ok_iff] at hstored
    rw [hserves.hasNewProperties, answerAt_eq_ok_iff] at hproperties
    obtain ⟨item, hat, hj⟩ := hstored
    obtain ⟨item', hat', hkept⟩ := hproperties
    rw [hat] at hat'
    cases hat'
    cases item with
    | kept j' =>
      injection hj with hj
      rw [hat, hj]
    | added new => cases hkept
  · intro hat
    constructor
    · rw [hserves.storedIndex]
      exact answerAt_eq_ok_iff.2 ⟨_, hat, rfl⟩
    · rw [hserves.hasNewProperties]
      exact answerAt_eq_ok_iff.2 ⟨_, hat, rfl⟩

/-- The answers show a stored item as kept somewhere exactly if it is not marked. -/
theorem exists_keepsAt_iff {s : Session α ρ} (hserves : s.Serves s.outputs) {j : StoredIndex} :
    (∃ i, s.KeepsAt i j) ↔ j.val < s.deletions.count ∧ j.val ∉ s.deletions.members := by
  rw [← Deletions.mem_survivors, ← kept_mem_outputs, List.mem_iff_getElem?]
  simp only [keepsAt_iff hserves]
  constructor
  · rintro ⟨i, hat⟩
    exact ⟨i.val, hat⟩
  · rintro ⟨i, hat⟩
    exact ⟨⟨i⟩, hat⟩

end Session

namespace Updater

variable {α ρ : Type} [Archive α]

/-- The path of a stored item is a text and is the path of some new item as well. -/
def Shadowed (u : Updater α ρ) (j : StoredIndex) : Prop :=
  j.val < Archive.itemCount u.archive ∧
    ∃ item ∈ u.items, Archive.path? u.archive j = some item.path.text

/-- The items to be overwritten are those that share a path with a new item. -/
theorem mem_shadowed {u : Updater α ρ} {j : StoredIndex} : j ∈ u.shadowed ↔ u.Shadowed j := by
  unfold shadowed Shadowed
  rw [List.mem_filter, Archive.mem_indices]
  apply and_congr_right
  intro _
  simp only [Option.any_eq_true, List.any_eq_true, decide_eq_true_eq]
  constructor
  · rintro ⟨p, hp, item, hitem, hpath⟩
    refine ⟨item, hitem, ?_⟩
    rw [hp, hpath]
  · rintro ⟨item, hitem, hpath⟩
    exact ⟨item.path.text, hpath, item, hitem, rfl⟩

/-- A run that overwrites marks what was marked before and what shares a path with a new item. -/
theorem mem_runDeletions {u : Updater α ρ} (hmode : u.options.mode = .overwrite)
    {j : StoredIndex} : j.val ∈ u.runDeletions.members ↔
      j.val ∈ u.deletions.members ∨ u.Shadowed j ∧ j.val < u.deletions.count := by
  rw [(extends_runDeletions u).mem, mem_shadowed, and_iff_right hmode]

/-- A run that appends marks what the caller marked.  A run that overwrites marks besides exactly
the stored items whose path is that of a new item, be it added, renamed or put in place of another:
while it answers, it keeps the stored items that are neither marked by the caller nor shadowed, and
none of these has the path of a new item.  Neither counting nor running changes the marks of the
caller.  In the life of an updater runs do begin, and the marks are for all stored items, if opening
items does not change their number. -/
theorem overwrites_same_paths [Reporter ρ] (u : Updater α ρ) (h : Host) :
    let beginning := Session.start u.archive h u.items u.runDeletions u.options.reporter
    (u.options.mode = .append → u.runDeletions = u.deletions) ∧
    (u.options.mode = .overwrite → ∀ j : StoredIndex, j.val ∈ u.runDeletions.members ↔
      j.val ∈ u.deletions.members ∨ u.Shadowed j ∧ j.val < u.deletions.count) ∧
    (Life u → (∀ (a : α) i, Archive.itemCount (Archive.openItem a i).2 = Archive.itemCount a) →
      u.deletions.count = Archive.itemCount u.archive ∧ ∃ s, beginning = .ok s) ∧
    (∀ s, beginning = .ok s → u.options.mode = .overwrite → ∀ course : List RunEvent,
      let log := s.exchanges course
      let now := s.after course
      Counted log → ¬Ended log →
        (∀ j, (∃ i, now.KeepsAt i j) ↔
          j.val < Archive.itemCount u.archive ∧ j.val ∉ u.deletions.members ∧ ¬u.Shadowed j) ∧
        ∀ i j, now.KeepsAt i j → ∀ item ∈ u.items,
          Archive.path? u.archive j ≠ some item.path.text) ∧
    ∀ (β : Type) (engine : Engine (Except UpdateError Unit × β)),
      (u.compress h engine).updater.deletions = u.deletions := by
  intro beginning
  refine ⟨?_, fun hmode j => mem_runDeletions hmode, ?_, ?_, ?_⟩
  · intro hmode
    unfold runDeletions
    rw [hmode]
  · intro hu hconst
    exact ⟨count_of_life hconst hu, start_of_life hconst hu h⟩
  · intro s hs hmode course log now hcounted hgoing
    have hserves : now.Serves now.outputs :=
      Session.serves_in_window (Session.standing_after (Session.standing_start hs) course)
        hcounted hgoing
    obtain ⟨hmarked, hsession⟩ := Session.start_eq_ok_iff.1 hs
    have hcount : u.deletions.count = Archive.itemCount u.archive := by
      rw [← hmarked, (extends_runDeletions u).count]
    have hmarks : now.deletions = u.runDeletions := by
      rw [(s.items_after course).2, hsession]
    have hkept : ∀ j, (∃ i, now.KeepsAt i j) ↔
        j.val < Archive.itemCount u.archive ∧ j.val ∉ u.deletions.members ∧ ¬u.Shadowed j := by
      intro j
      rw [Session.exists_keepsAt_iff hserves, hmarks, hmarked, mem_runDeletions hmode, hcount]
      tauto
    refine ⟨hkept, ?_⟩
    intro i j hi item hitem hpath
    obtain ⟨hstored, -, hclear⟩ := (hkept j).1 ⟨i, hi⟩
    exact hclear ⟨hstored, item, hitem, hpath⟩
  · intro β engine
    exact (archive_compress u h engine).1

end Updater

end ArchiveUpdate
