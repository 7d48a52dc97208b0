import ArchiveUpdate.Index
import ArchiveUpdate.Error

/-!
# Stored items marked for removal

A `Deletions` belongs to an archive of a known number of items and marks some of them.  The marked
positions are kept in increasing order without repetition, so two markings of one archive are equal
as soon as they mark the same positions (`Deletions.ext_mem`), whatever calls produced them.
-/

set_option autoImplicit false

namespace ArchiveUpdate

/-- The marked positions of an archive of `count` items. -/
structure Deletions where
  count : Nat
  members : List Nat
  sorted : members.Pairwise (· < ·)
  below : ∀ m ∈ members, m < count

namespace Deletions

/-- Inserts a number into an increasing list, once. -/
def place (n : Nat) : List Nat → List Nat
  | [] => [n]
  | m :: ms => if n < m then n :: m :: ms else if n = m then m :: ms else m :: place n ms

/-- Placing a number adds it and nothing else. -/
theorem mem_place {n k : Nat} {ms : List Nat} : k ∈ place n ms ↔ k = n ∨ k ∈ ms := by
  induction ms with
  | nil => simp [place]
  | cons m ms ih => grind [place]

/-- Placing a number keeps the order. -/
theorem pairwise_place {n : Nat} {ms : List Nat} (h : ms.Pairwise (· < ·)) :
    (place n ms).Pairwise (· < ·) := by
  induction ms with
  | nil => simp [place]
  | cons m ms ih =>
    have hm := List.pairwise_cons.1 h
    unfold place
    split
    · exact List.pairwise_cons.2 ⟨by intro a ha; grind, h⟩
    · split
      · exact h
      · refine List.pairwise_cons.2 ⟨fun a ha => ?_, ih hm.2⟩
        rcases mem_place.1 ha with rfl | ha
        · omega
        · exact hm.1 a ha

/-- Nothing marked in an archive of `count` items. -/
def empty (count : Nat) : Deletions := ⟨count, [], .nil, by simp⟩

/-- Whether a stored item is marked. -/
def contains (d : Deletions) (i : StoredIndex) : Bool := d.members.contains i.val

/-- The number of marked items. -/
def size (d : Deletions) : Nat := d.members.length

/-- The number of items left. -/
def kept (d : Deletions) : Nat := d.count - d.size

/-- Whether nothing is marked. -/
def isEmpty (d : Deletions) : Bool := d.members.isEmpty

/-- Marks a stored item and tells whether it was unmarked before; a position that the archive does
not have is refused. -/
def insert (d : Deletions) (i : StoredIndex) : Except UpdateError (Bool × Deletions) :=
  if h : i.val < d.count then
    .ok (!d.contains i,
      { d with
        members := place i.val d.members
        sorted := pairwise_place d.sorted
        below := fun m hm => by
          rcases mem_place.1 hm with rfl | hm
          · exact h
          · exact d.below m hm })
  else .error (.indexOutOfRange i.val d.count)

/-- Takes the mark off a stored item and tells whether there was one. -/
def erase (d : Deletions) (i : StoredIndex) : Bool × Deletions :=
  (d.contains i,
    { d with
      members := d.members.filter (· != i.val)
      sorted := d.sorted.filter _
      below := fun m hm => d.below m (List.mem_filter.1 hm).1 })

/-- Marks those of the given stored items that the archive has. -/
def insertAll (d : Deletions) (is : List StoredIndex) : Deletions :=
  is.foldl (fun d i => match d.insert i with
    | .ok (_, d') => d'
    | .error _ => d) d

instance : DecidableEq Deletions := fun a b =>
  if h : a.count = b.count ∧ a.members = b.members then
    isTrue (by cases a; cases b; simp_all)
  else isFalse (fun e => h (by simp [e]))

/-- Markings of one archive that mark the same positions are equal. -/
theorem ext_mem {a b : Deletions} (hc : a.count = b.count)
    (hm : ∀ m, m ∈ a.members ↔ m ∈ b.members) : a = b := by
  have key : ∀ {xs ys : List Nat}, xs.Pairwise (· < ·) → ys.Pairwise (· < ·) →
      (∀ m, m ∈ xs ↔ m ∈ ys) → xs = ys := by
    intro xs
    induction xs with
    | nil =>
      intro ys _ _ h
      cases ys with
      | nil => rfl
      | cons y ys => exact absurd ((h y).2 (by simp)) (by simp)
    | cons x xs ih =>
      intro ys hx hy h
      cases ys with
      | nil => exact absurd ((h x).1 (by simp)) (by simp)
      | cons y ys =>
        have hx' := List.pairwise_cons.1 hx
        have hy' := List.pairwise_cons.1 hy
        have hxy : x = y := by
          rcases List.mem_cons.1 ((h x).1 (by simp)) with e | e
          · exact e
          · rcases List.mem_cons.1 ((h y).2 (by simp)) with e' | e'
            · exact e'.symm
            · have h1 := hy'.1 x e
              have h2 := hx'.1 y e'
              omega
        subst hxy
        congr 1
        refine ih hx'.2 hy'.2 fun m => ⟨fun hmx => ?_, fun hmy => ?_⟩
        · rcases List.mem_cons.1 ((h m).1 (by simp [hmx])) with e | e
          · exact absurd (hx'.1 m hmx) (by omega)
          · exact e
        · rcases List.mem_cons.1 ((h m).2 (by simp [hmy])) with e | e
          · exact absurd (hy'.1 m hmy) (by omega)
          · exact e
  cases a; cases b
  simp only at hc hm
  subst hc
  simp [key (by assumption) (by assumption) hm]

end Deletions

end ArchiveUpdate
