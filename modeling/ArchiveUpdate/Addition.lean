import ArchiveUpdate.Item
import ArchiveUpdate.Listing

/-!
# Adding items

An `Addition` is a call that adds items to an update.  `Addition.items` answers the items it
contributes, in order, or why it contributes none; it changes nothing but the positions of lent
streams.
-/

set_option autoImplicit false

namespace ArchiveUpdate

/-- A call that adds items. -/
inductive Addition where
  /-- One file; an empty name asks for one made of the path. -/
  | file (path : DiskPath) (name : String)
  /-- Data that the caller hands over. -/
  | buffer (data : Bytes) (name : String)
  /-- A lent stream from its position on. -/
  | stream (id : Nat) (name : String)
  /-- A directory with all that lies below it. -/
  | directory (path : DiskPath)
  /-- The entries of a directory that a wildcard selects. -/
  | files (path : DiskPath) (filter : String)
  /-- Whatever is at each path. -/
  | paths (paths : List DiskPath)
  /-- Whatever is at each path, under another name where one is given. -/
  | pathsAs (places : List (DiskPath × String))

namespace Addition

/-- The items of a listing. -/
def ofListing (l : Listing) : List NewItem := l.map fun (path, item) => ⟨path, .disk item⟩

/-- The file at a path, which must not be a directory. -/
def fileAt (fs : FileSystem) (policy : SymlinkPolicy) (path : DiskPath) :
    Except UpdateError DiskItem := do
  let item ← Listing.onDisk (DiskItem.find fs policy path)
  if item.isDir then throw (.notAFile path.text) else pure item

/-- The path that a given name stands for; an empty one asks for none. -/
def givenPath (given : String) : Except UpdateError (Option ItemPath) :=
  if given.isEmpty then .ok none else some <$> ItemPath.parse given

/-- The items that a call adds. -/
def items (o : IndexOptions) (h : Host) : Addition → Except UpdateError (List NewItem) × Host
  | file path name =>
    (do
      let item ← fileAt h.files o.symlinkPolicy path
      pure [⟨← ItemPath.ofGivenName path name, .disk item⟩], h)
  | buffer data name => ((ItemPath.parse name).map fun path => [⟨path, .buffer ⟨data, h.now⟩⟩], h)
  | stream id name =>
    match ItemPath.parse name with
    | .error e => (.error e, h)
    | .ok path =>
      let (answer, h) := StreamItem.measure id h
      ((Listing.onDisk answer).map fun item => [⟨path, .stream item⟩], h)
  | directory path =>
    ((Listing.ofDirectory h.files path "" { o with recursive := true }).map ofListing, h)
  | files path filter => ((Listing.ofDirectory h.files path filter o).map ofListing, h)
  | paths ps => ((gather (fun p => Listing.ofPath h.files p none o) ps).map ofListing, h)
  | pathsAs places =>
    ((gather (fun (p, given) => do
      Listing.ofPath h.files p (← givenPath given) o) places).map ofListing, h)

end Addition

end ArchiveUpdate
