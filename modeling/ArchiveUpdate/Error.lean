/-!
# What can go wrong

`IoError` is a failure of a data source: a file, a stream or the stored archive.  `UpdateError` is
everything a call of this library can report; each constructor is one cause, and
`UpdateError.message` is the only place where its wording stands.
-/

set_option autoImplicit false

namespace ArchiveUpdate

/-- The classes into which failures of data sources fall. -/
inductive ErrorKind where
  | notFound
  | permissionDenied
  | invalidData
  | invalidInput
  | timedOut
  | unexpectedEof
  | alreadyExists
  | brokenPipe
  | unsupported
  | resourceBusy
  | outOfMemory
  | notADirectory
  | isADirectory
  | filesystemLoop
  | invalidFilename
  | other
  deriving DecidableEq, Repr, Inhabited

/-- A failure of a data source: its class and what the source says about it. -/
structure IoError where
  kind : ErrorKind
  message : String
  deriving DecidableEq, Repr, Inhabited

/-- Every failure that composing or running an update can report. -/
inductive UpdateError where
  /-- A data source failed. -/
  | io (cause : IoError)
  /-- A text is no path inside an archive, or no such path can be made of it. -/
  | invalidItemPath (text : String)
  /-- An item number is not below the number of items. -/
  | indexOutOfRange (index count : Nat)
  /-- A call came at a time when the run does not allow it. -/
  | invalidState (operation state : String)
  /-- A file was asked for and the path leads to a directory. -/
  | notAFile (path : String)
  /-- A directory was asked for and the path leads elsewhere. -/
  | notADirectory (path : String)
  /-- No stored item has this path. -/
  | entryNotFound (path : String)
  /-- The stored item was deleted, renamed or replaced before. -/
  | itemRemoved (index : Nat)
  /-- A wildcard pattern cannot be read. -/
  | invalidPattern (pattern reason : String)
  /-- The kept and new items are more than one archive can hold. -/
  | tooManyItems (count : Nat)
  /-- The run was cancelled. -/
  | cancelled
  /-- The engine ended the run as failed. -/
  | engineFailure (reason : String)
  deriving DecidableEq, Repr, Inhabited

namespace UpdateError

/-- The wording of each failure. -/
def message : UpdateError → String
  | io cause => s!"I/O error: {cause.message}"
  | invalidItemPath text => s!"Invalid archive path: {text}"
  | indexOutOfRange index count => s!"Index {index} out of range (count is {count})"
  | invalidState operation state => s!"Cannot {operation} while the update is {state}"
  | notAFile path => s!"Input path points to a directory, not a file: {path}"
  | notADirectory path => s!"Input path is not a directory: {path}"
  | entryNotFound path => s!"Entry not found: {path}"
  | itemRemoved index => s!"Original item {index} is already deleted or replaced"
  | invalidPattern pattern reason => s!"Invalid wildcard pattern '{pattern}': {reason}"
  | tooManyItems count => s!"Too many items for a single archive: {count}"
  | cancelled => "Operation cancelled"
  | engineFailure reason => s!"Update failed: {reason}"

/-- The failures that a caller or an engine brings about by what it asks, rather than the state of
a data source or the outcome of a run. -/
def isConfiguration : UpdateError → Bool
  | indexOutOfRange .. | invalidState .. | invalidItemPath _ | itemRemoved _ | invalidPattern ..
  | tooManyItems _ => true
  | io _ | notAFile _ | notADirectory _ | entryNotFound _ | cancelled | engineFailure _ => false

end UpdateError

end ArchiveUpdate
