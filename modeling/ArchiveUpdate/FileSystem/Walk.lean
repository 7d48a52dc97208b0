import ArchiveUpdate.Gather
import ArchiveUpdate.FileSystem.Access

/-!
# Walking through directories

A walk visits everything below a directory: the entries of each directory in the order of their
names, a directory right before what lies in it.  When links are followed, a link to a directory is
walked like a directory, unless it leads back to one that the walk is in.  The visitor decides what
each visit yields and whether a directory is entered; the first failure ends the walk.  No walk is
deeper than the greatest length of a path.
-/

set_option autoImplicit false

namespace ArchiveUpdate

/-- Something met on a walk. -/
structure WalkEntry where
  /-- The path of the walked directory extended by the names. -/
  path : DiskPath
  /-- The names that lead here from the walked directory. -/
  names : List FileName
  /-- What is there, behind a link if links are followed. -/
  node : Node
  /-- Whether a link was followed to get there. -/
  followed : Bool

/-- What a visit yields, and whether a directory is to be entered. -/
structure Visit (β : Type) where
  found : List β
  enter : Bool

namespace WalkEntry

/-- The number of steps from the walked directory. -/
def depth (e : WalkEntry) : Nat := e.names.length

end WalkEntry

namespace FileSystem

/-- A failure to get at something met on a walk. -/
def walkFailure (path : DiskPath) (cause : IoError) : UpdateError :=
  .io ⟨cause.kind, s!"IO error for operation on {path.text}: {cause.message}"⟩

/-- A link that leads back to a directory the walk is in. -/
def walkLoop (path ancestor : DiskPath) : UpdateError :=
  .io ⟨.other, s!"File system loop found: {path.text} points to an ancestor {ancestor.text}"⟩

/-- An answer of the file system, with a failure told as one of the walk. -/
def onWalk {α : Type} (path : DiskPath) : Except IoError α → Except UpdateError α
  | .ok a => .ok a
  | .error cause => .error (walkFailure path cause)

/-- The directories that a walk is in, innermost first, with the paths it reached them by. -/
abbrev Trail := List (Option Location × DiskPath)

/-- The trail with the directory at a path in front. -/
def extendTrail (fs : FileSystem) (path : DiskPath) (trail : Trail) : Trail :=
  match fs.status path with
  | .ok s => (s.location, path) :: trail
  | .error _ => trail

/-- Comes to an entry of a directory: a link is followed if `follow` says so, but not to a directory
of the trail. -/
def meet (fs : FileSystem) (follow : Bool) (trail : Trail) (path : DiskPath)
    (names : List FileName) (node : Node) : Except UpdateError WalkEntry :=
  if follow ∧ node.target?.isSome then
    match fs.status path with
    | .error cause => .error (walkFailure path cause)
    | .ok s =>
      match (if s.node.isDirectory then trail.find? (·.1 = s.location) else none) with
      | some ancestor => .error (walkLoop path ancestor.2)
      | none => .ok ⟨path, names, s.node, true⟩
  else .ok ⟨path, names, node, false⟩

/-- The entries of a directory in the order in which a walk visits them. -/
def sortedEntries (fs : FileSystem) (dir : DiskPath) :
    Except UpdateError (List (FileName × Node)) :=
  match fs.entries dir with
  | .ok entries => .ok (entries.mergeSort fun a b => decide (a.1.bytes ≤ b.1.bytes))
  | .error cause => .error (walkFailure dir cause)

variable {β : Type}

/-- Visits what lies below a directory, at most `room` levels deep. -/
def walkBelow (fs : FileSystem) (follow : Bool) (visit : WalkEntry → Except UpdateError (Visit β)) :
    (room : Nat) → (dir : DiskPath) → (names : List FileName) → Trail → Except UpdateError (List β)
  | 0, dir, _, _ => .error (walkFailure dir .longName)
  | room + 1, dir, names, trail =>
    match fs.sortedEntries dir with
    | .error e => .error e
    | .ok entries => entries |> gather fun (name, node) =>
      match fs.meet follow trail (dir.child name) (names ++ [name]) node with
      | .error e => .error e
      | .ok entry =>
        match visit entry with
        | .error e => .error e
        | .ok v =>
          if v.enter ∧ entry.node.isDirectory then
            match walkBelow fs follow visit room entry.path entry.names
                (fs.extendTrail entry.path trail) with
            | .error e => .error e
            | .ok below => .ok (v.found ++ below)
          else .ok v.found

/-- Visits what lies below a directory. -/
def walkWith (fs : FileSystem) (follow : Bool) (visit : WalkEntry → Except UpdateError (Visit β))
    (dir : DiskPath) : Except UpdateError (List β) :=
  walkBelow fs follow visit pathLengthLimit dir [] (fs.extendTrail dir [])

/-- Everything below a directory. -/
def walk (fs : FileSystem) (follow : Bool) (dir : DiskPath) : Except UpdateError (List WalkEntry) :=
  fs.walkWith follow (fun e => .ok ⟨[e], true⟩) dir

end FileSystem

end ArchiveUpdate
