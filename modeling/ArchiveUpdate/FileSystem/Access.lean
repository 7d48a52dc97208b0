import ArchiveUpdate.Content
import ArchiveUpdate.FileSystem.Tree

/-!
# Reaching files by path

A `FileSystem` is a tree of files seen from a current directory by their owner.  A path is followed
step by step: every step has to start from a directory that may be searched, a slash at the end asks
for a directory, symbolic links are followed up to a limit, and names and paths have a greatest
length.  `FileSystem.status` reports what a path leads to.  A current directory that is removed
stays current: it is empty from then on, and the directory above it is where it was.
-/

set_option autoImplicit false

namespace ArchiveUpdate

/-- A tree of files and the place from which relative paths start. -/
structure FileSystem where
  tree : FileTree
  /-- The location of the current directory or, if it was removed, of the closest directory above it
  that was not. -/
  current : Location
  /-- What the removed directories from the current one upward carry, innermost first. -/
  removed : List NodeInfo := []

/-- What a path leads to; a directory that was removed has no location. -/
structure FileStatus where
  location : Option Location
  node : Node

namespace IoError

/-- Nothing is there. -/
def noEntry : IoError := ⟨.notFound, "No such file or directory (os error 2)"⟩

/-- Something other than a directory stands where a directory is needed. -/
def noDirectory : IoError := ⟨.notADirectory, "Not a directory (os error 20)"⟩

/-- A directory stands where data is needed. -/
def directoryData : IoError := ⟨.isADirectory, "Is a directory (os error 21)"⟩

/-- A name or a whole path is too long. -/
def longName : IoError := ⟨.invalidFilename, "File name too long (os error 36)"⟩

/-- Too many links on the way. -/
def linkLoop : IoError := ⟨.filesystemLoop, "Too many levels of symbolic links (os error 40)"⟩

/-- The owner of the files has no right to do that. -/
def accessDenied : IoError := ⟨.permissionDenied, "Permission denied (os error 13)"⟩

/-- A path holds a NUL byte. -/
def nulInPath : IoError := ⟨.invalidInput, "file name contained an unexpected NUL byte"⟩

end IoError

namespace FileSystem

/-- The greatest length of a name. -/
def maxNameLength : Nat := 255

/-- The length from which on a path is too long. -/
def pathLengthLimit : Nat := 4096

/-- The number of links that are followed on one way. -/
def maxLinks : Nat := 40

/-- The steps of a path; a slash at the end counts as a last step without a name, which stays where
it is and asks for a directory. -/
def steps (path : DiskPath) : List Bytes :=
  let pieces := (Segments.split slashByte path.bytes).filter (· ≠ [])
  if path.bytes.getLast? = some slashByte then pieces ++ [[]] else pieces

/-- Follows steps up to the first link, where `onLink` takes over with the directory that holds the
link, the path it names and the steps behind it.  A link in the last step is followed only if
`followLast` says so. -/
def advance (t : FileTree) (followLast : Bool)
    (onLink : Location → DiskPath → List Bytes → Except IoError Location) :
    Location → List Bytes → Except IoError Location
  | here, [] => .ok here
  | here, step :: rest =>
    match t.node? here with
    | none => .error .noEntry
    | some (.file ..) | some (.link ..) => .error .noDirectory
    | some (.directory info) =>
      if step = [] then advance t followLast onLink here rest
      else if !info.searchable then .error .accessDenied
      else if step = [dotByte] then advance t followLast onLink here rest
      else if step = [dotByte, dotByte] then advance t followLast onLink here.dropLast rest
      else if maxNameLength < step.length then .error .longName
      else match FileName.ofBytes? step with
        | none => .error .noEntry
        | some name =>
          match t.node? (here ++ [name]) with
          | none => .error .noEntry
          | some (.link target _) =>
            if rest = [] ∧ followLast = false then .ok (here ++ [name])
            else onLink here target rest
          | some _ => advance t followLast onLink (here ++ [name]) rest

/-- Follows steps through at most the given number of links. -/
def locate (t : FileTree) (followLast : Bool) :
    Nat → Location → List Bytes → Except IoError Location
  | 0 => advance t followLast fun _ _ _ => .error .linkLoop
  | links + 1 => advance t followLast fun here target rest =>
    locate t followLast links (if target.isAbsolute then [] else here) (steps target ++ rest)

/-- Follows steps from a removed directory upward: the removed directories around the place where
they end, innermost first, or no directory and the steps that are left when they are out of them. -/
def emerge : List NodeInfo → List Bytes → Except IoError (List NodeInfo × List Bytes)
  | removed, [] => .ok (removed, [])
  | [], steps => .ok ([], steps)
  | info :: removed, step :: rest =>
    if step = [] then emerge (info :: removed) rest
    else if !info.searchable then .error .accessDenied
    else if step = [dotByte] then emerge (info :: removed) rest
    else if step = [dotByte, dotByte] then emerge removed rest
    else .error .noEntry

/-- What steps from a location lead to. -/
def reachFrom (t : FileTree) (followLast : Bool) (start : Location) (steps : List Bytes) :
    Except IoError FileStatus := do
  let location ← locate t followLast maxLinks start steps
  match t.node? location with
  | some node => pure ⟨some location, node⟩
  | none => throw .noEntry

/-- What a path leads to; a link in the last step is followed if `followLast` says so. -/
def reach (fs : FileSystem) (path : DiskPath) (followLast : Bool) : Except IoError FileStatus :=
  if 0 ∈ path.bytes then .error .nulInPath
  else if path.bytes = [] then .error .noEntry
  else if pathLengthLimit ≤ path.bytes.length then .error .longName
  else if path.isAbsolute then reachFrom fs.tree followLast [] (steps path)
  else match emerge fs.removed (steps path) with
    | .error cause => .error cause
    | .ok (info :: _, _) => .ok ⟨none, .directory info⟩
    | .ok ([], rest) => reachFrom fs.tree followLast fs.current rest

/-- What a path leads to when links are followed. -/
def status (fs : FileSystem) (path : DiskPath) : Except IoError FileStatus := fs.reach path true

/-- What a path leads to when a link at its end stands for itself. -/
def linkStatus (fs : FileSystem) (path : DiskPath) : Except IoError FileStatus :=
  fs.reach path false

/-- The entries of the directory at a path. -/
def entries (fs : FileSystem) (path : DiskPath) : Except IoError (List (FileName × Node)) := do
  let s ← fs.status path
  if !s.node.isDirectory then throw .noDirectory
  if !s.node.info.readable then throw .accessDenied
  pure (match s.location with
    | some loc => fs.tree.entries loc
    | none => [])

/-- Opens the file at a path: where its data lies and what it delivers.  A directory can be opened
too and then has no data to read. -/
def openFile (fs : FileSystem) (path : DiskPath) : Except IoError (Option Location × Content) := do
  let s ← fs.status path
  if !s.node.info.readable then throw .accessDenied
  match s.node with
  | .file data _ => pure (s.location, ⟨data, none⟩)
  | _ => pure (none, ⟨[], some .directoryData⟩)

end FileSystem

end ArchiveUpdate
