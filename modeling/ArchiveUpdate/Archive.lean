import ArchiveUpdate.Content
import ArchiveUpdate.Index
import ArchiveUpdate.Property

/-!
# The archive that is read

An `Archive` answers how many items it holds, what is known about each, and opens their data.
Opening may change it.  `EmptyArchive` stands for no archive at all; `MemoryArchive` holds its items
decoded and counts how often data was opened.
-/

set_option autoImplicit false

namespace ArchiveUpdate

/-- An archive whose items can be read. -/
class Archive (α : Type) where
  /-- The number of items. -/
  itemCount : α → Nat
  /-- What is known about an item. -/
  property : α → StoredIndex → PropertyKind → PropertyValue
  /-- Opens the data of an item. -/
  openItem : α → StoredIndex → Except IoError Content × α

namespace Archive

variable {α : Type} [Archive α]

/-- The path of an item, if it is a text. -/
def path? (a : α) (i : StoredIndex) : Option String := (property a i .path).string?

/-- The first of `n` positions from `i` on that passes a test. -/
def firstFrom (test : Nat → Bool) : (n : Nat) → (i : Nat) → Option Nat
  | 0, _ => none
  | n + 1, i => if test i then some i else firstFrom test n (i + 1)

/-- The first item with a path. -/
def find? (a : α) (path : String) : Option StoredIndex :=
  (firstFrom (fun i => path? a ⟨i⟩ = some path) (itemCount a) 0).map StoredIndex.mk

/-- All item positions. -/
def indices (a : α) : List StoredIndex := (List.range (itemCount a)).map StoredIndex.mk

end Archive

/-- An archive without items. -/
structure EmptyArchive where
  deriving DecidableEq, Repr, Inhabited

namespace EmptyArchive

instance : Archive EmptyArchive where
  itemCount _ := 0
  property _ _ _ := .empty
  openItem a i := (.error ⟨.notFound, s!"{i.text} does not exist in an empty archive"⟩, a)

end EmptyArchive

/-- A decoded item; a directory has no data. -/
structure MemoryEntry where
  path : String
  data : Option Bytes
  modified : Timestamp
  attributes : Nat
  deriving DecidableEq, Repr

/-- An archive of decoded items. -/
structure MemoryArchive where
  entries : List MemoryEntry := []
  /-- How often data was opened. -/
  opened : Nat := 0
  deriving DecidableEq, Repr, Inhabited

namespace MemoryArchive

/-- The archive with another item behind the others. -/
def withEntry (a : MemoryArchive) (e : MemoryEntry) : MemoryArchive :=
  { a with entries := a.entries ++ [e] }

/-- The archive with a file that is made now. -/
def withFile (a : MemoryArchive) (path : String) (data : Bytes) (now : Timestamp) : MemoryArchive :=
  a.withEntry ⟨path, some data, now, Attributes.archive⟩

/-- The archive with a directory that is made now. -/
def withDirectory (a : MemoryArchive) (path : String) (now : Timestamp) : MemoryArchive :=
  a.withEntry ⟨path, none, now, Attributes.directory⟩

/-- What is known about a decoded item. -/
def entryProperty (e : MemoryEntry) : PropertyKind → PropertyValue
  | .path => .string e.path
  | .isDir => .bool e.data.isNone
  | .size => .uint64 (e.data.getD []).length
  | .attributes => .uint32 e.attributes
  | .modificationTime => .time e.modified
  | .isAnti => .bool false
  | .creationTime | .accessTime | .other _ => .empty

instance : Archive MemoryArchive where
  itemCount a := min a.entries.length maxItems
  property a i kind :=
    match a.entries[i.val]? with
    | some e => entryProperty e kind
    | none => .empty
  openItem a i :=
    match a.entries[i.val]? with
    | some e => (.ok ⟨e.data.getD [], none⟩, { a with opened := a.opened + 1 })
    | none =>
      (.error ⟨.notFound,
        s!"{i.text} is out of range (archive has {a.entries.length} items)"⟩, a)

end MemoryArchive

end ArchiveUpdate
