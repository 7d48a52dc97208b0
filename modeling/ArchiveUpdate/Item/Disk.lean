import ArchiveUpdate.Host
import ArchiveUpdate.Options
import ArchiveUpdate.Property

/-!
# Items that lie on disk

A `DiskItem` records what was found at a path when it was looked at; its data is opened later, at
the same path.  A link that is not followed is an item of its own, whose data is the path it names,
as text.
-/

set_option autoImplicit false

namespace ArchiveUpdate

/-- What was found at a path. -/
structure DiskItem where
  path : DiskPath
  isDir : Bool
  linkTarget : Option DiskPath
  size : Nat
  attributes : Nat
  created : Option Timestamp
  accessed : Option Timestamp
  modified : Option Timestamp
  deriving DecidableEq, Repr

namespace DiskItem

/-- The attribute word of a node: its sort, whether writing is barred, and the file mode in the
upper half. -/
def attributesOf (node : Node) : Nat :=
  (if node.isDirectory then Attributes.directory else Attributes.archive) |||
  (if node.mode &&& 0o222 = 0 then Attributes.readOnly else 0) |||
  Attributes.unixExtension ||| (node.mode <<< 16)

/-- The record of a node that was found at a path. -/
def ofNode (path : DiskPath) (node : Node) : DiskItem where
  path := path
  isDir := node.isDirectory
  linkTarget := node.target?
  size := node.size
  attributes := attributesOf node
  created := node.info.created.bind Timestamp.ofUnix?
  accessed := Timestamp.ofUnix? node.info.accessed
  modified := Timestamp.ofUnix? node.info.modified

/-- Looks at what is at a path; a link at its end is followed if the policy says so. -/
def find (fs : FileSystem) (policy : SymlinkPolicy) (path : DiskPath) :
    Except IoError DiskItem :=
  (fs.reach path policy.follows).map fun s => ofNode path s.node

/-- Opens the data; a directory has none. -/
def openData (item : DiskItem) (fs : FileSystem) : Except IoError (Option Reader) :=
  if item.isDir then .ok none
  else match item.linkTarget with
    | some target => .ok (some (.settled ⟨Utf8.encode target.text.toList, none⟩))
    | none => (fs.openFile item.path).map fun
      | (some loc, content) => some (.file loc content)
      | (none, content) => some (.settled content)

end DiskItem

end ArchiveUpdate
