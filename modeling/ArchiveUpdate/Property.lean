import ArchiveUpdate.Timestamp

/-!
# Item properties

An engine asks for the properties of an item one kind at a time.  `PropertyKind` names the kinds by
their numbers in the archive format, `PropertyValue` is an answer, and `Attributes` holds the bits
of the attribute word.
-/

set_option autoImplicit false

namespace ArchiveUpdate

/-- What can be asked about an item. -/
inductive PropertyKind where
  | path
  | isDir
  | size
  | attributes
  | creationTime
  | accessTime
  | modificationTime
  | isAnti
  /-- A property that this library gives no meaning to. -/
  | other (id : Nat)
  deriving DecidableEq, Repr, Inhabited

namespace PropertyKind

/-- The kind with a format number. -/
def ofId : Nat → PropertyKind
  | 3 => path
  | 6 => isDir
  | 7 => size
  | 9 => attributes
  | 10 => creationTime
  | 11 => accessTime
  | 12 => modificationTime
  | 21 => isAnti
  | id => other id

/-- The format number of a kind. -/
def id : PropertyKind → Nat
  | path => 3
  | isDir => 6
  | size => 7
  | attributes => 9
  | creationTime => 10
  | accessTime => 11
  | modificationTime => 12
  | isAnti => 21
  | other id => id

end PropertyKind

/-- An answer about an item; a number says in which of two word sizes it was given. -/
inductive PropertyValue where
  | empty
  | bool (value : Bool)
  | uint32 (value : Nat)
  | uint64 (value : Nat)
  | string (value : String)
  | time (value : Timestamp)
  deriving DecidableEq, Repr, Inhabited

namespace PropertyValue

/-- Whether nothing was answered. -/
def isEmpty : PropertyValue → Bool
  | empty => true
  | _ => false

/-- The truth value, if it is one. -/
def bool? : PropertyValue → Option Bool
  | bool b => some b
  | _ => none

/-- The number, if it is one; the shorter word is widened. -/
def uint64? : PropertyValue → Option Nat
  | uint32 n => some n
  | uint64 n => some n
  | _ => none

/-- The number of the shorter word, if it is one. -/
def uint32? : PropertyValue → Option Nat
  | uint32 n => some n
  | _ => none

/-- The text, if it is one. -/
def string? : PropertyValue → Option String
  | string s => some s
  | _ => none

/-- The point in time, if it is one. -/
def time? : PropertyValue → Option Timestamp
  | time t => some t
  | _ => none

/-- An answer made of a value that may be missing. -/
def ofOption {α : Type} (wrap : α → PropertyValue) : Option α → PropertyValue
  | some a => wrap a
  | none => empty

end PropertyValue

namespace Attributes

/-- The item must not be written to. -/
def readOnly : Nat := 0x01

/-- The item is a directory. -/
def directory : Nat := 0x10

/-- The item is a plain file. -/
def archive : Nat := 0x20

/-- Nothing special is known of the item. -/
def normal : Nat := 0x80

/-- The upper half of the word holds a file mode. -/
def unixExtension : Nat := 0x8000

end Attributes

end ArchiveUpdate
