import ArchiveUpdate.DiskPath
import ArchiveUpdate.Timestamp

/-!
# A tree of files

A `FileTree` holds files, directories and symbolic links by their `Location`: the names that lead
to them from the root of the disk without any link on the way.  No location occurs twice, so a
directory lists each name once.  The root itself is always a directory.
-/

set_option autoImplicit false

namespace ArchiveUpdate

/-- Where a file lies: the names of the directories that hold it, from the root on, and its own. -/
abbrev Location := List FileName

/-- What a directory entry carries besides its data. -/
structure NodeInfo where
  /-- The permission bits of the file mode. -/
  permissions : Nat
  modified : UnixTime
  accessed : UnixTime
  created : Option UnixTime := none
  deriving DecidableEq, Repr, Inhabited

namespace NodeInfo

/-- Whether its owner may read the data of a file or list a directory. -/
def readable (i : NodeInfo) : Bool := i.permissions &&& 0o400 != 0

/-- Whether its owner may look up names in a directory. -/
def searchable (i : NodeInfo) : Bool := i.permissions &&& 0o100 != 0

/-- The state after the data was read at a time: that becomes the time of the last access, unless
the last access lies later than both that time and the last change of the data. -/
def touch (now : UnixTime) (i : NodeInfo) : NodeInfo :=
  if i.accessed.notAfter now || i.accessed.notAfter i.modified then { i with accessed := now }
  else i

end NodeInfo

/-- A file, a directory or a symbolic link with the path it names. -/
inductive Node where
  | file (data : Bytes) (info : NodeInfo)
  | directory (info : NodeInfo)
  | link (target : DiskPath) (info : NodeInfo)
  deriving DecidableEq, Repr, Inhabited

namespace Node

/-- What the node carries besides its data. -/
def info : Node → NodeInfo
  | file _ i | directory i | link _ i => i

/-- Whether the node is a directory. -/
def isDirectory : Node → Bool
  | directory _ => true
  | _ => false

/-- The path that a symbolic link names. -/
def target? : Node → Option DiskPath
  | link target _ => some target
  | _ => none

/-- The node after its data was read at a time. -/
def touch (now : UnixTime) : Node → Node
  | file data i => file data (i.touch now)
  | n => n

/-- The node's length in bytes; for a link it is the length of the path it names. -/
def size : Node → Nat
  | file data _ => data.length
  | directory _ => 0
  | link target _ => target.bytes.length

/-- The bits of the file mode that tell the sorts of nodes apart. -/
def typeBits : Node → Nat
  | file .. => 0o100000
  | directory _ => 0o040000
  | link .. => 0o120000

/-- The whole file mode. -/
def mode (n : Node) : Nat := n.typeBits ||| n.info.permissions

end Node

/-- Files, directories and links by location. -/
structure FileTree where
  nodes : List (Location × Node)
  distinct : (nodes.map Prod.fst).Nodup

namespace FileTree

/-- The directory that is there when nothing else was said about it. -/
def plainDirectory : Node :=
  .directory ⟨0o755, ⟨1000000000, 0⟩, ⟨1000000000, 0⟩, none⟩

/-- Nothing but the root. -/
def empty : FileTree := ⟨[], .nil⟩

/-- What is at a location. -/
def node? (t : FileTree) (loc : Location) : Option Node :=
  if loc = [] then some plainDirectory else t.nodes.lookup loc

/-- The name of a location within a directory, if it lies directly in it. -/
def nameIn? (dir loc : Location) : Option FileName :=
  if loc.dropLast = dir then loc.getLast? else none

/-- What lies directly in a directory. -/
def entries (t : FileTree) (dir : Location) : List (FileName × Node) :=
  t.nodes.filterMap fun (loc, node) => (nameIn? dir loc).map (·, node)

/-- The tree without what is at a location and below it. -/
def remove (t : FileTree) (loc : Location) : FileTree where
  nodes := t.nodes.filter fun entry => !loc.isPrefixOf entry.1
  distinct := t.distinct.sublist (List.filter_sublist.map _)

/-- The tree with a node at a location in place of what is there; what lies below stays. -/
def set (t : FileTree) (loc : Location) (node : Node) : FileTree where
  nodes := t.nodes.filter (·.1 ≠ loc) ++ [(loc, node)]
  distinct := by
    rw [List.map_append, List.nodup_append]
    refine ⟨t.distinct.sublist (List.filter_sublist.map _), by simp, ?_⟩
    intro a ha b hb
    simp only [List.map_cons, List.map_nil, List.mem_singleton] at hb
    obtain ⟨entry, he, rfl⟩ := List.mem_map.1 ha
    simpa [hb] using (List.mem_filter.1 he).2

/-- The tree after the data of the file at a location was read at a time. -/
def touch (t : FileTree) (loc : Location) (now : UnixTime) : FileTree where
  nodes := t.nodes.map fun (held, node) => (held, if held = loc then node.touch now else node)
  distinct := by
    have same : ∀ l : List (Location × Node),
        (l.map fun (held, node) => (held, if held = loc then node.touch now else node)).map
          Prod.fst = l.map Prod.fst := fun l => by simp [List.map_map, Function.comp_def]
    rw [same]
    exact t.distinct

/-- The tree with a plain directory at every location on the way where there is nothing. -/
def withParents (t : FileTree) (loc : Location) : FileTree :=
  ((List.range loc.length).map loc.take).foldl (fun t dir =>
    if (t.node? dir).isNone then t.set dir plainDirectory else t) t

/-- The tree with a node at a location; missing directories on the way are made, and a directory
that gives way to something else takes along what lies below it. -/
def put (t : FileTree) (loc : Location) (node : Node) : FileTree :=
  let t := if node.isDirectory then t else t.remove loc
  (t.withParents loc).set loc node

end FileTree

end ArchiveUpdate
