/-!
# Item numbers

An update reads a stored archive and describes a new one.  The items of the two are numbered
separately: a `StoredIndex` counts the items the archive already holds, an `OutputIndex` counts the
items the finished archive will hold.
-/

set_option autoImplicit false

namespace ArchiveUpdate

/-- The largest number of items one archive can hold: what 32 bits can count. -/
def maxItems : Nat := 4294967295

/-- What a word of 32 bits holds of a number. -/
def word32 (n : Nat) : Nat := n % UInt32.size

/-- A number that fits into the word is held as it is. -/
theorem word32_of_lt {n : Nat} (h : n < UInt32.size) : word32 n = n := Nat.mod_eq_of_lt h

/-- It makes no difference whether a summand was held in a word before. -/
theorem word32_add (m n : Nat) : word32 (word32 m + n) = word32 (m + n) := Nat.mod_add_mod m _ n

/-- The position of an item in the archive being written. -/
structure OutputIndex where
  val : Nat
  deriving DecidableEq, Repr, Inhabited

/-- The position of an item in the archive being read. -/
structure StoredIndex where
  val : Nat
  deriving DecidableEq, Repr, Inhabited

namespace OutputIndex

/-- An output position is shown as its number behind a hash sign. -/
def text (i : OutputIndex) : String := s!"#{i.val}"

/-- Output positions are ordered by number. -/
instance : Ord OutputIndex := ⟨fun a b => compare a.val b.val⟩

end OutputIndex

namespace StoredIndex

/-- A stored position is shown like an output position, with a word that tells them apart. -/
def text (i : StoredIndex) : String := s!"original #{i.val}"

/-- Stored positions are ordered by number. -/
instance : Ord StoredIndex := ⟨fun a b => compare a.val b.val⟩

end StoredIndex

end ArchiveUpdate
