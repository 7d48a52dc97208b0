import ArchiveUpdate.FileSystem.Access

/-!
# Making and removing files

Files come and go by path while an update is prepared and runs.  A path leads through links as it
does for reading, but where there is nothing yet its names are taken as they stand, so that every
path out of removed directories has a location to put something at (`FileSystem.target`).  Making a
file makes the directories that are missing on the way.  Removing a directory that the current one
lies in leaves the current one without a location, and a new directory in its place is another one.
-/

set_option autoImplicit false

namespace ArchiveUpdate

namespace FileSystem

/-- Follows steps up to the first link, where `onLink` takes over with the directory that holds the
link, the path it names and the steps behind it.  A link in the last step is followed only if
`followLast` says so; a step that no entry can have as its name stays where it is. -/
def descend (t : FileTree) (followLast : Bool)
    (onLink : Location → DiskPath → List Bytes → Location) : Location → List Bytes → Location
  | here, [] => here
  | here, step :: rest =>
    if step = [dotByte, dotByte] then descend t followLast onLink here.dropLast rest
    else match FileName.ofBytes? step with
      | none => descend t followLast onLink here rest
      | some name =>
        match t.node? (here ++ [name]) with
        | some (.link path _) =>
          if rest = [] ∧ followLast = false then here ++ [name] else onLink here path rest
        | _ => descend t followLast onLink (here ++ [name]) rest

/-- Follows steps through at most the given number of links. -/
def settle (t : FileTree) (followLast : Bool) : Nat → Location → List Bytes → Location
  | 0 => descend t followLast fun here _ _ => here
  | links + 1 => descend t followLast fun here path rest =>
    settle t followLast links (if path.isAbsolute then [] else here) (steps path ++ rest)

/-- The location for something made at a path, if it does not lie in a removed directory; a link in
the last step is followed if `followLast` says so. -/
def target (fs : FileSystem) (path : DiskPath) (followLast : Bool) : Option Location :=
  if path.isAbsolute then some (settle fs.tree followLast maxLinks [] (steps path))
  else match emerge fs.removed (steps path) with
    | .ok ([], rest) => some (settle fs.tree followLast maxLinks fs.current rest)
    | _ => none

/-- What a directory carries once it is removed; taking out what was in it changes it. -/
def infoRemoved? (t : FileTree) (now : UnixTime) (dir : Location) : Option NodeInfo :=
  (t.node? dir).map fun node =>
    if (t.entries dir).isEmpty then node.info else { node.info with modified := now }

/-- The directories from the current one upward to the one at a location that it lies in. -/
def enclosing (fs : FileSystem) (loc : Location) : List Location :=
  (List.range (fs.current.length + 1 - loc.length)).map fun up =>
    fs.current.take (fs.current.length - up)

/-- The file system after what is at a location and below it was removed at a time. -/
def clear (fs : FileSystem) (now : UnixTime) (loc : Location) : FileSystem :=
  if loc.isPrefixOf fs.current then
    { tree := fs.tree.remove loc
      current := loc.dropLast
      removed := fs.removed ++ (fs.enclosing loc).filterMap (infoRemoved? fs.tree now) }
  else { fs with tree := fs.tree.remove loc }

/-- The file system after a node was made at a path.  A file or directory made at a link is made
where the link leads; a link takes the place of what is there. -/
def put (fs : FileSystem) (now : UnixTime) (path : DiskPath) (node : Node) : FileSystem :=
  match fs.target path node.target?.isNone with
  | none => fs
  | some loc =>
    let fs := if node.isDirectory then fs else fs.clear now loc
    { fs with tree := fs.tree.put loc node }

/-- The file system after what is at a path and below it was removed; a link goes, and what it leads
to stays.  The root stays too. -/
def remove (fs : FileSystem) (now : UnixTime) (path : DiskPath) : FileSystem :=
  match fs.target path false with
  | none | some [] => fs
  | some (name :: names) => fs.clear now (name :: names)

/-- The file system seen from the directory at a path, which is made if nothing is there. -/
def enter (fs : FileSystem) (path : DiskPath) : FileSystem :=
  match fs.target path true with
  | none => fs
  | some loc =>
    { tree := match fs.tree.node? loc with
        | none => fs.tree.put loc FileTree.plainDirectory
        | some _ => fs.tree
      current := loc }

end FileSystem

end ArchiveUpdate
