import ArchiveUpdate.Deletions

/-!
# From output positions to items

The finished archive holds the kept stored items first, in their stored order, and then the new
items in the order they were added.  A `Layout` is that numbering: `Layout.resolve` finds the item
at an output position.  Without marks every stored item keeps its number.  Otherwise a table of the
kept items is filled in one pass: the candidate for an output position is the position plus an
offset, and every mark that the candidate meets moves the offset up by one.
-/

set_option autoImplicit false

namespace ArchiveUpdate

/-- What stands at an output position. -/
inductive Placement where
  /-- A stored item that is kept. -/
  | kept (stored : StoredIndex)
  /-- The new item at this position of the additions. -/
  | added (position : Nat)
  deriving DecidableEq, Repr

/-- The kept stored items behind the first output positions. -/
inductive KeptRegion where
  /-- Each of so many stored items keeps its number. -/
  | identity (count : Nat)
  /-- The stored item at each output position. -/
  | table (stored : Array StoredIndex)
  deriving DecidableEq, Repr

namespace KeptRegion

/-- The number of kept stored items. -/
def size : KeptRegion → Nat
  | identity count => count
  | table stored => stored.size

/-- The stored item at an output position. -/
def get : (region : KeptRegion) → (i : Nat) → i < region.size → StoredIndex
  | identity _, i, _ => ⟨i⟩
  | table stored, i, h =>
    have : i < stored.size := h
    stored[i]

end KeptRegion

namespace Deletions

/-- Passes the marks that stand in a row from the candidate `i + offset` on: the offset behind them
and the marks that are left. -/
def passMarks (i : Nat) : (offset : Nat) → (marks : List Nat) → Nat × List Nat
  | offset, [] => (offset, [])
  | offset, m :: ms => if m = i + offset then passMarks i (offset + 1) ms else (offset, m :: ms)

/-- Fills the rows of `n` output positions from `i` on. -/
def fillTable : (n i offset : Nat) → (marks : List Nat) → Array StoredIndex → Array StoredIndex
  | 0, _, _, _, table => table
  | n + 1, i, offset, marks, table =>
    let (offset, marks) := passMarks i offset marks
    fillTable n (i + 1) offset marks (table.push ⟨i + offset⟩)

/-- Each position that is filled adds a row to the table. -/
theorem size_fillTable (n i offset : Nat) (marks : List Nat) (table : Array StoredIndex) :
    (fillTable n i offset marks table).size = table.size + n := by
  induction n generalizing i offset marks table with
  | zero => rfl
  | succ n ih => rw [fillTable, ih, Array.size_push]; omega

/-- The kept stored items; a table of them is made only if something is marked. -/
def keptRegion (d : Deletions) : KeptRegion :=
  if d.isEmpty then .identity d.kept else .table (fillTable d.kept 0 0 d.members #[])

/-- In either form the kept region is as large as the number of kept items. -/
theorem size_keptRegion (d : Deletions) : d.keptRegion.size = d.kept := by
  unfold keptRegion
  split
  · rfl
  · simp [KeptRegion.size, size_fillTable]

end Deletions

/-- The numbering of an archive made of kept stored items and `added` new ones. -/
structure Layout where
  region : KeptRegion
  added : Nat
  fits : region.size + added ≤ maxItems
  deriving DecidableEq

namespace Layout

/-- The numbering for the given marks and number of new items, unless the items are too many for
one archive.  The number is that of a list, which is never so long that the sum would not fit into a
word of 64 bits. -/
def of (deletions : Deletions) (added : Nat) : Except UpdateError Layout :=
  if h : deletions.kept + added ≤ maxItems then
    .ok ⟨deletions.keptRegion, added, by rwa [deletions.size_keptRegion]⟩
  else .error (.tooManyItems (deletions.kept + added))

/-- The numbering for any number of new items.  The items are added up in a word of 64 bits, and
where it cannot hold the sum, the computation breaks off: there is neither a numbering nor a
refusal. -/
def of? (deletions : Deletions) (added : Nat) : Option (Except UpdateError Layout) :=
  if deletions.kept + added < UInt64.size then some (of deletions added) else none

/-- The number of kept stored items. -/
def kept (l : Layout) : Nat := l.region.size

/-- The number of output positions. -/
def total (l : Layout) : Nat := l.kept + l.added

/-- Whether every stored item keeps its number. -/
def isIdentity (l : Layout) : Bool :=
  match l.region with
  | .identity _ => true
  | .table _ => false

/-- The item at an output position. -/
def resolve (l : Layout) (i : OutputIndex) : Except UpdateError Placement :=
  if h : i.val < l.kept then .ok (.kept (l.region.get i.val h))
  else if i.val - l.kept < l.added then .ok (.added (i.val - l.kept))
  else .error (.indexOutOfRange i.val l.total)

end Layout

end ArchiveUpdate
