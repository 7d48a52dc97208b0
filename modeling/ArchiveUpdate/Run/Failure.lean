import ArchiveUpdate.Error
import ArchiveUpdate.Index

/-!
# Items whose data could not be opened

A source that fails to open does not end a run.  It is recorded, once for each output position, and
the run goes on without it.
-/

set_option autoImplicit false

namespace ArchiveUpdate

/-- An item whose data could not be opened, and why. -/
structure FailedItem where
  index : OutputIndex
  path : String
  reason : String
  kind : ErrorKind
  deriving DecidableEq, Repr

namespace FailedItem

/-- One line about the item. -/
def text (f : FailedItem) : String := s!"{f.path} ({f.index.text}): {f.reason}"

end FailedItem

/-- The items whose data could not be opened, in the order in which that came to light. -/
structure FailureLog where
  entries : List FailedItem := []
  deriving DecidableEq, Repr, Inhabited

namespace FailureLog

/-- What is on record about an output position. -/
def get? (log : FailureLog) (i : OutputIndex) : Option FailedItem :=
  log.entries.find? (·.index = i)

/-- The log with another item behind the others. -/
def record (log : FailureLog) (f : FailedItem) : FailureLog := ⟨log.entries ++ [f]⟩

/-- Whether nothing failed. -/
def isEmpty (log : FailureLog) : Bool := log.entries.isEmpty

end FailureLog

end ArchiveUpdate
