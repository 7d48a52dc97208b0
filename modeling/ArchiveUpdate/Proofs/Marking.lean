import ArchiveUpdate.Deletions

/-!
# What marking stored items comes to

`Extends` says that one marking is another with some stored items marked besides.  Inserting extends
by one item, inserting a whole list by those of its items that the archive has.
-/

set_option autoImplicit false

namespace ArchiveUpdate.Deletions

/-- The second marking belongs to the same archive and marks, besides what the first one marks,
exactly these stored items. -/
structure Extends (d d' : Deletions) (more : StoredIndex → Prop) : Prop where
  count : d'.count = d.count
  mem : ∀ j : StoredIndex, j.val ∈ d'.members ↔ j.val ∈ d.members ∨ more j

namespace Extends

variable {d d₁ d₂ : Deletions} {more more' : StoredIndex → Prop}

/-- Marks are extended by marks that they hold. -/
theorem refl (d : Deletions) (hmore : ∀ j, more j → j.val ∈ d.members) : d.Extends d more :=
  ⟨rfl, fun j => ⟨.inl, fun h => h.elim id (hmore j)⟩⟩

/-- Two extensions after each other are one by both. -/
theorem trans (h : d.Extends d₁ more) (h' : d₁.Extends d₂ more') :
    d.Extends d₂ fun j => more j ∨ more' j := by
  refine ⟨h'.count.trans h.count, fun j => ?_⟩
  rw [h'.mem, h.mem, or_assoc]

/-- By which items marks are extended, not how these are described, is what counts. -/
theorem congr (h : d.Extends d₁ more) (hmore : ∀ j, more j ↔ more' j) : d.Extends d₁ more' :=
  ⟨h.count, fun j => by rw [h.mem, hmore]⟩

/-- Only one marking marks these stored items besides. -/
theorem unique (h : d.Extends d₁ more) (h' : d.Extends d₂ more) : d₁ = d₂ :=
  ext_mem (h.count.trans h'.count.symm) fun m => (h.mem ⟨m⟩).trans (h'.mem ⟨m⟩).symm

end Extends

/-- An item is found marked if its number is among the marks. -/
theorem contains_iff {d : Deletions} {i : StoredIndex} :
    d.contains i = true ↔ i.val ∈ d.members := by
  simp [contains]

/-- A position of the archive is inserted, and nothing else happens. -/
theorem insert_of_lt {d : Deletions} {i : StoredIndex} (hi : i.val < d.count) :
    ∃ d', d.insert i = .ok (!d.contains i, d') ∧ d.Extends d' (· = i) := by
  refine ⟨_, dif_pos hi, rfl, fun j => ?_⟩
  cases i
  cases j
  simp only [mem_place, StoredIndex.mk.injEq]
  exact or_comm

/-- An item that is not there is not marked. -/
theorem insert_of_le {d : Deletions} {i : StoredIndex} (hi : d.count ≤ i.val) :
    d.insert i = .error (.indexOutOfRange i.val d.count) :=
  dif_neg (Nat.not_lt.2 hi)

/-- Erasing takes away one mark and no other. -/
theorem mem_erase_iff {d : Deletions} {i j : StoredIndex} :
    j.val ∈ (d.erase i).2.members ↔ j.val ∈ d.members ∧ j ≠ i := by
  cases i
  cases j
  simp [erase]

/-- Of many items those are marked that are there. -/
theorem extends_insertAll (d : Deletions) (is : List StoredIndex) :
    d.Extends (d.insertAll is) fun j => j ∈ is ∧ j.val < d.count := by
  induction is generalizing d with
  | nil => exact .refl d (by simp)
  | cons i is ih =>
    by_cases hi : i.val < d.count
    · obtain ⟨d', hinsert, hone⟩ := insert_of_lt hi
      have hall : d.insertAll (i :: is) = d'.insertAll is := by
        simp only [insertAll, List.foldl_cons, hinsert]
      rw [hall]
      refine (hone.trans (ih d')).congr fun j => ?_
      rw [hone.count, List.mem_cons]
      constructor
      · rintro (rfl | ⟨hj, hlt⟩)
        · exact ⟨.inl rfl, hi⟩
        · exact ⟨.inr hj, hlt⟩
      · rintro ⟨rfl | hj, hlt⟩
        · exact .inl rfl
        · exact .inr ⟨hj, hlt⟩
    · have hall : d.insertAll (i :: is) = d.insertAll is := by
        simp only [insertAll, List.foldl_cons, insert_of_le (Nat.not_lt.1 hi)]
      rw [hall]
      refine (ih d).congr fun j => ?_
      rw [List.mem_cons]
      constructor
      · rintro ⟨hj, hlt⟩
        exact ⟨.inr hj, hlt⟩
      · rintro ⟨rfl | hj, hlt⟩
        · exact absurd hlt hi
        · exact ⟨hj, hlt⟩

end ArchiveUpdate.Deletions
