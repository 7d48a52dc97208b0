import ArchiveUpdate.Error
import ArchiveUpdate.Index
import ArchiveUpdate.Property
import ArchiveUpdate.Text.Utf8

/-!
# What an engine asks

During a run an engine asks for the number of items, for what is known about each output position
and for data, and it reports what became of items and of the run.  Each `Request` has its own type
of answer, `Request.Reply`.
-/

set_option autoImplicit false

namespace ArchiveUpdate

/-- What became of an item. -/
inductive ItemOutcome where
  | success
  | failed (reason : String)
  deriving DecidableEq, Repr

/-- What became of a run. -/
inductive RunOutcome where
  | success
  | failed (reason : String)
  | cancelled
  deriving DecidableEq, Repr

/-- The answer to a request for data. -/
inductive DataAnswer where
  /-- The data can be read now. -/
  | stream
  /-- The item has no data. -/
  | noData
  /-- The data could not be opened; the failure is on record. -/
  | unavailable
  deriving DecidableEq, Repr, Inhabited

/-- What can be asked of a run. -/
inductive Request where
  /-- The number of items; the first question of a run. -/
  | countItems
  | property (i : OutputIndex) (kind : PropertyKind)
  /-- The data of an item, which then can be read until the next request that is no read. -/
  | data (i : OutputIndex)
  /-- At most `n` bytes of the data handed out last. -/
  | read (n : Nat)
  | hasNewData (i : OutputIndex)
  | hasNewProperties (i : OutputIndex)
  /-- The stored item behind an output position. -/
  | storedIndex (i : OutputIndex)
  | reportItem (i : OutputIndex) (outcome : ItemOutcome)
  | reportRun (outcome : RunOutcome)
  | setTotal (bytes : Nat)
  /-- Tells how many bytes are done and asks whether to go on. -/
  | setCompleted (bytes : Nat)
  | setRatio (input output : Nat)
  /-- No question of the engine: someone outside asks the reporter for the end of the run. -/
  | interrupt
  deriving DecidableEq, Repr

namespace Request

/-- The type of the answer to a request. -/
@[reducible] def Reply : Request → Type
  | countItems => Except UpdateError Nat
  | property .. => Except UpdateError PropertyValue
  | data _ => Except UpdateError DataAnswer
  | read _ => Except IoError Bytes
  | hasNewData _ | hasNewProperties _ => Except UpdateError Bool
  | storedIndex _ => Except UpdateError (Option StoredIndex)
  | reportItem .. | reportRun _ => Except UpdateError Unit
  | setCompleted _ => Bool
  | setTotal _ | setRatio .. | interrupt => Unit

end Request

end ArchiveUpdate
