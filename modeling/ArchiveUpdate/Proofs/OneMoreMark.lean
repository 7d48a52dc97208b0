import ArchiveUpdate.Proofs.Marking
import ArchiveUpdate.Proofs.OutputNumbering
import Mathlib.Data.List.Nodup

/-!
# The numbering with one more item marked

Marking one more stored item takes its row out of the numbering and closes the gap
(`placements_eraseIdx`): the rows before it stay, the rows behind it, new items included, move up by
one.  Taking the mark off again gives the numbering back.  Both hold whatever form the kept region
takes, so also where the first mark turns the identity into a table and the last one leaves.
-/

set_option autoImplicit false

namespace ArchiveUpdate

namespace Deletions

variable {d d' : Deletions} {j : StoredIndex}

/-- One more mark takes its item out of the survivors and leaves the others in order. -/
theorem survivors_erase (h : d.Extends d' (· = j)) : d'.survivors = d.survivors.erase j := by
  rw [d.nodup_survivors.erase_eq_filter, survivors, survivors, h.count, List.filter_map,
    List.filter_filter]
  congr 1
  apply List.filter_congr
  intro m _
  have hmarked : m ∈ d'.members ↔ m ∈ d.members ∨ StoredIndex.mk m = j := h.mem ⟨m⟩
  rw [Bool.eq_iff_iff]
  simp [hmarked, and_comm]

/-- The row that goes is the one at the number of the item less the number of marks below it. -/
theorem survivors_eraseIdx (h : d.Extends d' (· = j)) (hj : j ∈ d.survivors) :
    d'.survivors = d.survivors.eraseIdx (j.val - d.marksBelow j.val) := by
  obtain ⟨hrow, hat⟩ := List.getElem?_eq_some_iff.1 (getElem?_survivors_rank hj)
  rw [survivors_erase h, ← d.nodup_survivors.erase_getElem _ hrow, hat]

/-- The new items stand behind all survivors, so the row goes from all placements alike. -/
theorem placements_eraseIdx (h : d.Extends d' (· = j)) (hj : j ∈ d.survivors) (added : Nat) :
    d'.placements added = (d.placements added).eraseIdx (j.val - d.marksBelow j.val) := by
  obtain ⟨hrow, -⟩ := List.getElem?_eq_some_iff.1 (getElem?_survivors_rank hj)
  rw [placements, placements, survivors_eraseIdx h hj, ← List.eraseIdx_map,
    List.eraseIdx_append_of_lt_length (by rwa [List.length_map])]

/-- Marking a survivor leaves one item less. -/
theorem kept_add_one (h : d.Extends d' (· = j)) (hj : j ∈ d.survivors) : d'.kept + 1 = d.kept := by
  rw [← length_survivors, ← length_survivors, survivors_erase h, List.length_erase_of_mem hj]
  have hpos := List.length_pos_of_mem hj
  omega

/-- Taking off the one mark that was put gives the old marking back. -/
theorem erase_of_extends (h : d.Extends d' (· = j)) (hj : j.val ∉ d.members) :
    d'.erase j = (true, d) := by
  have hmarked : d'.contains j = true := contains_iff.2 ((h.mem j).2 (.inr rfl))
  have hback : (d'.erase j).2 = d := by
    have hcount : (d'.erase j).2.count = d.count := h.count
    apply ext_mem hcount
    intro m
    have hmem : m ∈ d'.members ↔ m ∈ d.members ∨ StoredIndex.mk m = j := h.mem ⟨m⟩
    have herased : m ∈ (d'.erase j).2.members ↔ m ∈ d'.members ∧ StoredIndex.mk m ≠ j :=
      mem_erase_iff
    rw [herased, hmem]
    constructor
    · rintro ⟨hold | rfl, hne⟩
      · exact hold
      · exact absurd rfl hne
    · intro hold
      refine ⟨.inl hold, ?_⟩
      rintro rfl
      exact hj hold
  exact Prod.ext hmarked hback

end Deletions

namespace Layout

variable {d d' : Deletions} {j : StoredIndex} {added : Nat} {l l' : Layout}

/-- Items that are not too many have a numbering. -/
theorem exists_of_le (d : Deletions) {added : Nat} (h : d.kept + added ≤ maxItems) :
    ∃ l, Layout.of d added = .ok l :=
  ⟨_, dif_pos h⟩

/-- Positions of two numberings that hold the same item are resolved alike. -/
theorem resolve_eq_of_getElem?_eq {i i' : OutputIndex}
    (hl : Layout.of d added = .ok l) (hl' : Layout.of d' added = .ok l') (hi' : i'.val < l'.total)
    (h : (d'.placements added)[i'.val]? = (d.placements added)[i.val]?) :
    l'.resolve i' = l.resolve i := by
  cases hr : l'.resolve i' with
  | error e =>
    have hge := ((resolve_eq_error_iff hl').1 hr).1
    rw [(of_eq_ok hl').2.2.2] at hi'
    omega
  | ok p =>
    rw [resolve_eq_ok_iff hl', h] at hr
    exact ((resolve_eq_ok_iff hl).2 hr).symm

/-- Marking one more stored item takes its row out of the numbering: the rows before it resolve as
they did, every other row as the one behind it did.  Taking the mark off gives the same marking and
the same numbering back.  The numbering is the identity exactly while nothing is marked, so the
first mark leads from the identity to a table, and taking it off leads back. -/
theorem one_more_mark_closes_up (hj : j.val < d.count) (hunmarked : j.val ∉ d.members)
    (hfits : d.count - d.size + added ≤ maxItems) :
    ∃ d' l l', d.insert j = .ok (true, d') ∧ Layout.of d added = .ok l ∧
      Layout.of d' added = .ok l' ∧ l'.total + 1 = l.total ∧
      l.resolve ⟨j.val - d.marksBelow j.val⟩ = .ok (.kept j) ∧
      (∀ i : Nat, i < j.val - d.marksBelow j.val → l'.resolve ⟨i⟩ = l.resolve ⟨i⟩) ∧
      (∀ i : Nat, j.val - d.marksBelow j.val ≤ i → i < l'.total →
        l'.resolve ⟨i⟩ = l.resolve ⟨i + 1⟩) ∧
      d'.erase j = (true, d) ∧ Layout.of (d'.erase j).2 added = .ok l ∧
      l.isIdentity = d.isEmpty ∧ l'.isIdentity = false := by
  obtain ⟨d', hinsert, hone⟩ := Deletions.insert_of_lt hj
  have hsurvivor : j ∈ d.survivors := Deletions.mem_survivors.2 ⟨hj, hunmarked⟩
  have hkept := Deletions.kept_add_one hone hsurvivor
  have hfits : d.kept + added ≤ maxItems := hfits
  have hfits' : d'.kept + added ≤ maxItems := by omega
  obtain ⟨l, hl⟩ := exists_of_le d hfits
  obtain ⟨l', hl'⟩ := exists_of_le d' hfits'
  have htotal : l.total = d.kept + added := (of_eq_ok hl).2.2.2
  have htotal' : l'.total = d'.kept + added := (of_eq_ok hl').2.2.2
  have hfresh : d.contains j = false := by
    rw [Bool.eq_false_iff, Ne, Deletions.contains_iff]
    exact hunmarked
  have hplacements := Deletions.placements_eraseIdx hone hsurvivor added
  have hrow : l.resolve ⟨j.val - d.marksBelow j.val⟩ = .ok (.kept j) :=
    (resolve_eq_kept_iff hl).2 ⟨⟨hj, hunmarked⟩, rfl⟩
  refine ⟨d', l, l', ?_, hl, hl', ?_, hrow, ?_, ?_, ?_, ?_, isIdentity_of hl, ?_⟩
  · rw [hinsert, hfresh]
    rfl
  · omega
  · intro i hi
    have hlt : i < l'.total := by
      have hlast := Deletions.length_survivors d
      have hrank := (List.getElem?_eq_some_iff.1 (Deletions.getElem?_survivors_rank hsurvivor)).1
      omega
    apply resolve_eq_of_getElem?_eq hl hl' hlt
    rw [hplacements, List.getElem?_eraseIdx_of_lt hi]
  · intro i hi hlt
    apply resolve_eq_of_getElem?_eq hl hl' hlt
    rw [hplacements, List.getElem?_eraseIdx_of_ge hi]
  · exact Deletions.erase_of_extends hone hunmarked
  · rw [Deletions.erase_of_extends hone hunmarked]
    exact hl
  · rw [isIdentity_of hl']
    have hmarked : j.val ∈ d'.members := (hone.mem j).2 (.inr rfl)
    rw [Deletions.isEmpty, List.isEmpty_eq_false_iff]
    exact List.ne_nil_of_mem hmarked

/-- The middle one of three items, marked first: the identity gives way to a table in which the
third item and the new one move up, and comes back.  With marks on both sides of an item already,
the rows behind it close up over the whole run of marks. -/
theorem one_more_mark_closes_up_between_marks :
    let d := Deletions.empty 3
    let e := d.insertAll [⟨0⟩, ⟨2⟩]
    (1 < d.count ∧ 1 ∉ d.members ∧ d.count - d.size + 1 ≤ maxItems) ∧
    (∃ d' l l', d.insert ⟨1⟩ = .ok (true, d') ∧ Layout.of d 1 = .ok l ∧ Layout.of d' 1 = .ok l' ∧
      l.isIdentity = true ∧ l'.isIdentity = false ∧ l'.resolve ⟨0⟩ = l.resolve ⟨0⟩ ∧
      l'.resolve ⟨1⟩ = l.resolve ⟨2⟩ ∧ l'.resolve ⟨2⟩ = l.resolve ⟨3⟩ ∧
      Layout.of (d'.erase ⟨1⟩).2 1 = .ok l) ∧
    (1 < e.count ∧ 1 ∉ e.members ∧ e.count - e.size + 1 ≤ maxItems) ∧
    ∃ e' l l', e.insert ⟨1⟩ = .ok (true, e') ∧ Layout.of e 1 = .ok l ∧ Layout.of e' 1 = .ok l' ∧
      l.resolve ⟨0⟩ = .ok (.kept ⟨1⟩) ∧ l'.resolve ⟨0⟩ = l.resolve ⟨1⟩ ∧
      e'.erase ⟨1⟩ = (true, e) := by
  intro d e
  have hd : 1 < d.count ∧ 1 ∉ d.members ∧ d.count - d.size + 1 ≤ maxItems := by decide
  have he : 1 < e.count ∧ 1 ∉ e.members ∧ e.count - e.size + 1 ≤ maxItems := by decide
  refine ⟨hd, ?_, he, ?_⟩
  · obtain ⟨d', l, l', hinsert, hl, hl', htotal, -, hbefore, hbehind, -, hback, hidentity,
      htable⟩ := one_more_mark_closes_up (j := ⟨1⟩) hd.1 hd.2.1 hd.2.2
    have htotal' : l.total = 4 := (of_eq_ok hl).2.2.2
    refine ⟨d', l, l', hinsert, hl, hl', hidentity, htable, ?_, ?_, ?_, hback⟩
    · exact hbefore 0 (by decide)
    · exact hbehind 1 (by decide) (by omega)
    · exact hbehind 2 (by decide) (by omega)
  · obtain ⟨e', l, l', hinsert, hl, hl', htotal, hrow, -, hbehind, hback, -⟩ :=
      one_more_mark_closes_up (j := ⟨1⟩) he.1 he.2.1 he.2.2
    have htotal' : l.total = 2 := (of_eq_ok hl).2.2.2
    exact ⟨e', l, l', hinsert, hl, hl', hrow, hbehind 0 (by decide) (by omega), hback⟩

end Layout

end ArchiveUpdate
