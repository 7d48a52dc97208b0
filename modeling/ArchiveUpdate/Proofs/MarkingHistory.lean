import ArchiveUpdate.Proofs.Marking
import ArchiveUpdate.Proofs.OutputNumbering
import Mathlib.Data.List.Induction

/-!
# Markings and the edits that led to them

A marking is edited by inserting and erasing stored items, and an insertion of an item that the
archive does not have is refused.  One edit decides about the item that it names and about no other
(`mem_apply_iff`).  So after any edits an item is marked if the archive has it and the last edit
that names it inserts it (`mem_after_iff`).  Nothing else is left of the edits, since a marking is
told by the items that it contains (`eq_ofTest`).
-/

set_option autoImplicit false

namespace ArchiveUpdate.Deletions

/-- A call that edits a marking. -/
inductive Edit where
  | insert (i : StoredIndex)
  | erase (i : StoredIndex)
  deriving DecidableEq

/-- The stored item that an edit names. -/
def Edit.item : Edit → StoredIndex
  | insert i => i
  | erase i => i

/-- The marking after an edit; one that is refused leaves it as it was. -/
def apply (d : Deletions) : Edit → Deletions
  | .insert i =>
    match d.insert i with
    | .ok (_, d') => d'
    | .error _ => d
  | .erase i => (d.erase i).2

/-- The marking after some edits. -/
def after (d : Deletions) (edits : List Edit) : Deletions := edits.foldl apply d

/-- The last edit that names an item. -/
def lastEdit? (i : StoredIndex) (edits : List Edit) : Option Edit :=
  edits.reverse.find? (·.item = i)

/-- The marking of those items of an archive that a test picks. -/
def ofTest (count : Nat) (test : StoredIndex → Bool) : Deletions where
  count := count
  members := (List.range count).filter fun m => test ⟨m⟩
  sorted := List.pairwise_lt_range.filter _
  below := fun _ hm => List.mem_range.1 (List.mem_filter.1 hm).1

variable {d : Deletions} {edit : Edit} {edits : List Edit} {i : StoredIndex}

/-- The last edit is applied to what the others leave. -/
theorem after_concat (d : Deletions) (edits : List Edit) (edit : Edit) :
    d.after (edits ++ [edit]) = (d.after edits).apply edit := by
  rw [after, List.foldl_append]
  rfl

/-- The last edit of an item is the final one if that is about the item, and else the last before
it. -/
theorem lastEdit?_concat :
    lastEdit? i (edits ++ [edit]) = if edit.item = i then some edit else lastEdit? i edits := by
  by_cases hitem : edit.item = i <;> simp [lastEdit?, hitem]

/-- Marks made by a test are those of the items that pass it. -/
theorem mem_ofTest_iff {count : Nat} {test : StoredIndex → Bool} :
    i.val ∈ (ofTest count test).members ↔ i.val < count ∧ test i = true := by
  simp only [ofTest, List.mem_filter, List.mem_range]

/-- A marking is told by the number of items and by which of them it contains. -/
theorem eq_ofTest (d : Deletions) : d = ofTest d.count d.contains := by
  have hcount : d.count = (ofTest d.count d.contains).count := rfl
  apply ext_mem hcount
  intro m
  rw [mem_ofTest_iff (i := ⟨m⟩), contains_iff]
  exact ⟨fun hm => ⟨d.below m hm, hm⟩, fun hm => hm.2⟩

/-- The marks in order are those of all numbers that are found marked. -/
theorem members_eq_filter (d : Deletions) :
    d.members = (List.range d.count).filter fun m => d.contains ⟨m⟩ :=
  congrArg members d.eq_ofTest

/-- There are as many marks as items that are found marked. -/
theorem size_eq_countP (d : Deletions) :
    d.size = (List.range d.count).countP fun m => d.contains ⟨m⟩ := by
  rw [size, members_eq_filter, List.countP_eq_length_filter]

/-- A mark that is refused leaves the marks as they were. -/
theorem apply_of_refused (hi : d.count ≤ i.val) : d.apply (.insert i) = d := by
  simp only [apply, insert_of_le hi]

/-- A mark that is not refused extends the marks by its item. -/
theorem extends_apply (hi : i.val < d.count) : d.Extends (d.apply (.insert i)) (· = i) := by
  obtain ⟨d', hinsert, hone⟩ := insert_of_lt hi
  simpa only [apply, hinsert] using hone

/-- No edit changes how many items can be marked. -/
theorem count_apply (d : Deletions) (edit : Edit) : (d.apply edit).count = d.count := by
  cases edit with
  | insert i =>
    by_cases hi : i.val < d.count
    · exact (extends_apply hi).count
    · rw [apply_of_refused (Nat.not_lt.1 hi)]
  | erase i => rfl

/-- An edit decides about the item that it names and leaves all others as they are. -/
theorem mem_apply_iff : i.val ∈ (d.apply edit).members ↔
    if edit.item = i then i.val < d.count ∧ edit = .insert i else i.val ∈ d.members := by
  cases edit with
  | insert j =>
    by_cases hj : j.val < d.count
    · rw [(extends_apply hj).mem]
      split
      · rename_i hitem
        obtain rfl : j = i := hitem
        exact iff_of_true (.inr rfl) ⟨hj, rfl⟩
      · rename_i hitem
        exact or_iff_left fun hij => hitem hij.symm
    · rw [apply_of_refused (Nat.not_lt.1 hj)]
      split
      · rename_i hitem
        obtain rfl : j = i := hitem
        exact iff_of_false (fun hmem => hj (d.below _ hmem)) fun h => hj h.1
      · rfl
  | erase j =>
    rw [apply, mem_erase_iff]
    split
    · rename_i hitem
      obtain rfl : j = i := hitem
      exact iff_of_false (fun h => h.2 rfl) fun h => nomatch h.2
    · rename_i hitem
      exact and_iff_left fun hij => hitem hij.symm

/-- Nor does any history of edits. -/
theorem count_after (d : Deletions) (edits : List Edit) : (d.after edits).count = d.count := by
  induction edits using List.reverseRecOn with
  | nil => rfl
  | append_singleton edits edit ih => rw [after_concat, count_apply, ih]

/-- After edits of an empty marking, an item is marked if the archive has it and the last edit that
names it inserts it.  The induction is on the edits, from the last one back. -/
theorem mem_after_iff {count : Nat} : i.val ∈ ((empty count).after edits).members ↔
    i.val < count ∧ lastEdit? i edits = some (.insert i) := by
  induction edits using List.reverseRecOn with
  | nil => exact iff_of_false List.not_mem_nil fun h => nomatch h.2
  | append_singleton edits edit ih =>
    rw [after_concat, mem_apply_iff, count_after, lastEdit?_concat]
    split
    · rw [Option.some.injEq]
      rfl
    · exact ih

/-- An insertion succeeds exactly on an item of the archive, and tells whether it was unmarked. -/
theorem exists_insert_eq_ok_iff {b : Bool} :
    (∃ d', d.insert i = .ok (b, d')) ↔ i.val < d.count ∧ d.contains i = !b := by
  by_cases hi : i.val < d.count
  · obtain ⟨d', hinsert, -⟩ := insert_of_lt hi
    simp only [hinsert, Except.ok.injEq, Prod.mk.injEq, exists_and_left, exists_eq', and_true, hi,
      true_and]
    cases d.contains i <;> cases b <;> decide
  · rw [insert_of_le (Nat.not_lt.1 hi)]
    exact iff_of_false (fun ⟨_, h⟩ => nomatch h) fun h => hi h.1

/-- A mark is refused exactly for an item that is not there. -/
theorem insert_eq_error_iff {e : UpdateError} :
    d.insert i = .error e ↔ d.count ≤ i.val ∧ e = .indexOutOfRange i.val d.count := by
  by_cases hi : i.val < d.count
  · obtain ⟨d', hinsert, -⟩ := insert_of_lt hi
    rw [hinsert]
    exact iff_of_false nofun fun h => absurd h.1 (Nat.not_le.2 hi)
  · rw [insert_of_le (Nat.not_lt.1 hi)]
    simp [Nat.not_lt.1 hi, eq_comm]

/-- An insertion changes nothing exactly if it is refused or the item is marked already. -/
theorem apply_insert_eq_self_iff :
    d.apply (.insert i) = d ↔ d.count ≤ i.val ∨ d.contains i = true := by
  rw [contains_iff]
  by_cases hi : i.val < d.count
  · have hone := extends_apply hi
    constructor
    · intro h
      rw [h] at hone
      exact .inr ((hone.mem i).2 (.inr rfl))
    · rintro (hle | hmarked)
      · exact absurd hi (Nat.not_lt.2 hle)
      · exact hone.unique (.refl d fun j hj => hj ▸ hmarked)
  · exact iff_of_true (apply_of_refused (Nat.not_lt.1 hi)) (.inl (Nat.not_lt.1 hi))

/-- Markings of archives of one size are equal exactly if they contain the same items. -/
theorem eq_iff_contains {d' : Deletions} (hcount : d.count = d'.count) :
    d = d' ↔ ∀ i, d.contains i = d'.contains i := by
  constructor
  · rintro rfl i
    rfl
  · intro h
    rw [d.eq_ofTest, d'.eq_ofTest, hcount, funext h]

/-- After any edits of the empty marking of an archive of so many items, refused ones among them,
an item is marked if the archive has it and the last edit that names it inserts it.  All marked
positions are listed, in increasing order and each once; their number and that of the items left
make up the whole archive, so neither is greater than the archive and no difference is cut off.  An
insertion succeeds exactly on an item of the archive and tells whether it was unmarked, any other is
refused and changes nothing, and erasing tells whether there was a mark.  Two such markings are
equal exactly if they contain the same items, whatever edits led to them. -/
theorem marks_of_edits (count : Nat) (edits : List Edit) :
    let d := (empty count).after edits
    d.count = count ∧
    (∀ i, d.contains i = true ↔ i.val < count ∧ lastEdit? i edits = some (.insert i)) ∧
    d.members = (List.range count).filter (fun m => d.contains ⟨m⟩) ∧
    (∀ m ∈ d.members, m < count) ∧
    d.members.Pairwise (· < ·) ∧
    d.members.Nodup ∧
    d.size = (List.range count).countP (fun m => d.contains ⟨m⟩) ∧
    d.kept + d.size = count ∧
    (∀ i,
      ((∃ d', d.insert i = .ok (true, d')) ↔ i.val < count ∧ d.contains i = false) ∧
      ((∃ d', d.insert i = .ok (false, d')) ↔ d.contains i = true) ∧
      (∀ e, d.insert i = .error e ↔ count ≤ i.val ∧ e = .indexOutOfRange i.val count) ∧
      (d.apply (.insert i) = d ↔ count ≤ i.val ∨ d.contains i = true) ∧
      ((d.erase i).1 = true ↔ d.contains i = true)) ∧
    ∀ edits', (empty count).after edits' = d ↔
      ∀ i, ((empty count).after edits').contains i = d.contains i := by
  intro d
  have hcount : d.count = count := count_after _ _
  have hbelow : ∀ m ∈ d.members, m < count := by
    intro m hm
    rw [← hcount]
    exact d.below m hm
  refine ⟨hcount, ?_, ?_, hbelow, d.sorted, d.sorted.imp Nat.ne_of_lt, ?_, ?_, ?_, ?_⟩
  · intro i
    rw [contains_iff, mem_after_iff]
  · rw [d.members_eq_filter, hcount]
  · rw [d.size_eq_countP, hcount]
  · rw [d.kept_add_size, hcount]
  · intro i
    refine ⟨?_, ?_, ?_, ?_, Iff.rfl⟩
    · rw [exists_insert_eq_ok_iff, hcount]
      rfl
    · rw [exists_insert_eq_ok_iff, hcount]
      exact and_iff_right_of_imp fun h => hbelow _ (contains_iff.1 h)
    · intro e
      rw [insert_eq_error_iff, hcount]
    · rw [apply_insert_eq_self_iff, hcount]
  · intro edits'
    exact eq_iff_contains ((count_after _ _).trans hcount.symm)

/-- Edits that come to the same, one of them refused. -/
example : (empty 3).after [.insert ⟨2⟩, .insert ⟨0⟩, .insert ⟨7⟩, .erase ⟨2⟩] =
    (empty 3).after [.erase ⟨1⟩, .insert ⟨0⟩] := by decide

end ArchiveUpdate.Deletions
