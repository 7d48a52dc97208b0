import ArchiveUpdate.Archive
import ArchiveUpdate.Item.Disk
import ArchiveUpdate.ItemPath

/-!
# New items

A `NewItem` is something that an update adds: a path inside the archive and where the rest comes
from, which is a disk item, a buffer, a lent stream or a stored item under another path.  A stored
item that is renamed keeps all its properties but the path, and its data.
-/

set_option autoImplicit false

namespace ArchiveUpdate

/-- Data that the caller handed over. -/
structure BufferItem where
  data : Bytes
  created : Timestamp
  deriving DecidableEq, Repr

/-- A lent stream from a position on, with the number of bytes that were there when it was lent. -/
structure StreamItem where
  id : Nat
  start : Nat
  size : Nat
  created : Timestamp
  deriving DecidableEq, Repr

namespace StreamItem

/-- One line about the item. -/
def description (s : StreamItem) : String :=
  s!"StreamItem \x7b start: {s.start}, size: {s.size}, .. \x7d"

/-- The failure to open a stream that someone is reading. -/
def busy : IoError := ⟨.resourceBusy, "stream is already being read"⟩

/-- Measures a lent stream; a number that no stream has stands for an empty one. -/
def measure (id : Nat) (h : Host) : Except IoError StreamItem × Host :=
  let slot := h.streams.getD id default
  match slot.stream.measure with
  | (.error e, s) => (.error e, h.setSlot id { slot with stream := s })
  | (.ok (start, size), s) =>
    (.ok ⟨id, start, size, h.now⟩, h.setSlot id { slot with stream := s })

/-- Opens the stream at the position where it was lent, unless someone is reading it. -/
def openData (item : StreamItem) (h : Host) : Except IoError Reader × Host :=
  let slot := h.streams.getD item.id default
  if slot.busy then (.error busy, h)
  else match slot.stream.seek item.start with
    | (.error e, s) => (.error e, h.setSlot item.id { slot with stream := s })
    | (.ok _, s) => (.ok (.stream item.id item.size), h.setSlot item.id ⟨s, true⟩)

end StreamItem

/-- Where a new item comes from. -/
inductive ItemSource where
  | disk (item : DiskItem)
  | buffer (item : BufferItem)
  | stream (item : StreamItem)
  | renamed (stored : StoredIndex)
  deriving DecidableEq, Repr

/-- An item that an update adds. -/
structure NewItem where
  path : ItemPath
  source : ItemSource
  deriving DecidableEq

namespace ItemSource

variable {α : Type} [Archive α]

/-- The stored item that is renamed, if that is the source. -/
def renamed? : ItemSource → Option StoredIndex
  | renamed i => some i
  | _ => none

/-- What the source says about the item; the archive answers for a renamed item. -/
def property (s : ItemSource) (archive : α) (kind : PropertyKind) : PropertyValue :=
  match s, kind with
  | renamed i, kind => Archive.property archive i kind
  | disk d, .isDir => .bool d.isDir
  | disk d, .size => .uint64 d.size
  | disk d, .attributes => .uint32 d.attributes
  | disk d, .creationTime => .ofOption .time d.created
  | disk d, .accessTime => .ofOption .time d.accessed
  | disk d, .modificationTime => .ofOption .time d.modified
  | _, .isDir => .bool false
  | buffer b, .size => .uint64 b.data.length
  | stream s, .size => .uint64 s.size
  | _, .attributes => .uint32 Attributes.normal
  | buffer b, .creationTime | buffer b, .accessTime | buffer b, .modificationTime => .time b.created
  | stream s, .creationTime | stream s, .accessTime | stream s, .modificationTime => .time s.created
  | _, .path | _, .isAnti | _, .other _ => .empty

/-- Opens the data: `none` where there is none to open. -/
def openData (s : ItemSource) (archive : α) (h : Host) :
    Except IoError (Option Reader) × α × Host :=
  match s with
  | disk d => (d.openData h.files, archive, h)
  | buffer b => (.ok (some (.settled ⟨b.data, none⟩)), archive, h)
  | stream s =>
    let (answer, h) := s.openData h
    (answer.map some, archive, h)
  | renamed i =>
    let (answer, archive) := Archive.openItem archive i
    (answer.map fun content => some (.settled content), archive, h)

end ItemSource

namespace NewItem

variable {α : Type} [Archive α]

/-- What is known about the item.  The path is its own, and no new item is a removal mark. -/
def property (item : NewItem) (archive : α) : PropertyKind → PropertyValue
  | .path => .string item.path.text
  | .isAnti => .bool false
  | kind => item.source.property archive kind

/-- The number of bytes that the item reports. -/
def size (item : NewItem) (archive : α) : Nat := ((item.property archive .size).uint64?).getD 0

end NewItem

end ArchiveUpdate
