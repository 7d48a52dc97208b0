import ArchiveUpdate.DiskPath.Derive
import ArchiveUpdate.FileSystem.Walk
import ArchiveUpdate.Item.Disk
import ArchiveUpdate.Wildcard

/-!
# Finding files for an archive

A listing turns a path on disk into items with their paths inside the archive.
`Listing.ofDirectory` lists a directory, with a wildcard that selects entries by their own names;
`Listing.ofPath` lists whatever is at a path.  What lies below a directory is listed in the order of
a walk, each entry under the names that lead to it, below the in-archive path of the directory if it
has one.
-/

set_option autoImplicit false

namespace ArchiveUpdate

/-- Items found on disk with their paths inside the archive. -/
abbrev Listing := List (ItemPath × DiskItem)

namespace Listing

/-- An answer of the file system, with a failure told as one of the update. -/
def onDisk {α : Type} : Except IoError α → Except UpdateError α
  | .ok a => .ok a
  | .error cause => .error (.io cause)

/-- Reads a filter; an empty one selects everything. -/
def readFilter (filter : String) : Except UpdateError (Option Wildcard) :=
  if filter.isEmpty then .ok none else some <$> Wildcard.parse filter

/-- The relative path made of the names that lead to an entry. -/
def relativePath (names : List FileName) : DiskPath :=
  ⟨Segments.join slashByte (names.map (·.bytes))⟩

/-- An entry's own name as text. -/
def entryName (e : WalkEntry) : Except UpdateError String :=
  ItemPath.nameText e.path ((e.names.getLast?.map (·.bytes)).getD [])

/-- What is at a met entry, looked at again. -/
def entryStatus (fs : FileSystem) (e : WalkEntry) : Except UpdateError FileStatus :=
  FileSystem.onWalk e.path (if e.followed then fs.status e.path else fs.linkStatus e.path)

/-- The listing of one entry that was selected. -/
def ofEntry (fs : FileSystem) (base : Option ItemPath) (onlyFiles : Bool) (e : WalkEntry) :
    Except UpdateError Listing := do
  let s ← entryStatus fs e
  if onlyFiles ∧ s.node.isDirectory then pure []
  else match ← ItemPath.ofDiskNames? (relativePath e.names) with
    | none => pure []
    | some relative =>
      let path ← match base with
        | some base => base.join relative.text
        | none => pure relative
      pure [(path, DiskItem.ofNode e.path s.node)]

/-- Whether an entry is selected by its own name. -/
def selected (pattern : Option Wildcard) (policy : FilterPolicy) (name : String) : Bool :=
  policy.selects (pattern.all (·.accepts name))

/-- What a walk does with an entry.  Without recursion a directory directly below the walked one is
entered only if it was selected. -/
def visit (fs : FileSystem) (base : Option ItemPath) (pattern : Option Wildcard)
    (o : IndexOptions) (e : WalkEntry) : Except UpdateError (Visit (ItemPath × DiskItem)) := do
  let name ← entryName e
  if selected pattern o.filterPolicy name then pure ⟨← ofEntry fs base o.onlyFiles e, true⟩
  else pure ⟨[], o.recursive || e.depth ≠ 1⟩

/-- The listing of what lies below a directory. -/
def below (fs : FileSystem) (dir : DiskPath) (base : Option ItemPath) (pattern : Option Wildcard)
    (o : IndexOptions) : Except UpdateError Listing :=
  fs.walkWith o.symlinkPolicy.follows (visit fs base pattern o) dir

/-- The listing of a directory.  With a filter, the entries stand at the top of the archive unless
the path plainly descends from the current directory or its folders are retained. -/
def ofDirectory (fs : FileSystem) (dir : DiskPath) (filter : String) (o : IndexOptions) :
    Except UpdateError Listing := do
  let root ← onDisk (DiskItem.find fs o.symlinkPolicy dir)
  if !root.isDir then throw (.notADirectory dir.text)
  let pattern ← readFilter filter
  let base ←
    if o.retainFolders then ItemPath.ofDiskNames? dir
    else if pattern.isNone || dir.isPlain then ItemPath.ofDisk? dir none
    else pure none
  let own := if pattern.isNone && !o.onlyFiles then base.toList.map (·, root) else []
  pure (own ++ (← below fs dir base pattern o))

/-- The listing of whatever is at a path: a directory with all that lies below it, or nothing
without recursion; anything else by itself. -/
def ofPath (fs : FileSystem) (path : DiskPath) (given : Option ItemPath) (o : IndexOptions) :
    Except UpdateError Listing := do
  let item ← onDisk (DiskItem.find fs o.symlinkPolicy path)
  let base ← match given with
    | some given => pure (some given)
    | none => if o.retainFolders then ItemPath.ofDiskNames? path else ItemPath.ofDisk? path none
  if !item.isDir then
    match base with
    | some base => pure [(base, item)]
    | none => throw (ItemPath.noName path)
  else if o.recursive then
    let own := if o.onlyFiles then [] else base.toList.map (·, item)
    pure (own ++ (← below fs path base none { o with filterPolicy := .include }))
  else pure []

end Listing

end ArchiveUpdate
