import ArchiveUpdate.Item
import ArchiveUpdate.Layout
import ArchiveUpdate.Progress
import ArchiveUpdate.Run.Failure
import ArchiveUpdate.Run.Request

/-!
# One run of an update

A `Session` answers the requests of an engine for one run.  It begins uninitialized, is active from
the first count of the items on and ends with the report of the run's outcome; questions about items
are answered only while it is active.  Sources that fail to open go into the failure log and are not
tried again.  A wish to cancel, once noticed, stays.
-/

set_option autoImplicit false

namespace ArchiveUpdate

/-- How far a run has come. -/
inductive Phase where
  | uninitialized
  | active
  | finalizing
  deriving DecidableEq, Repr, Inhabited

namespace Phase

/-- The name of a phase in messages. -/
def label : Phase → String
  | uninitialized => "uninitialized"
  | active => "active"
  | finalizing => "finalizing"

end Phase

/-- The item at an output position. -/
inductive OutputItem where
  /-- A stored item that is kept. -/
  | kept (stored : StoredIndex)
  /-- A new item. -/
  | added (item : NewItem)
  deriving DecidableEq

namespace OutputItem

variable {α : Type} [Archive α]

/-- What is known about the item; no item of a finished archive is a removal mark. -/
def property (item : OutputItem) (archive : α) (kind : PropertyKind) : PropertyValue :=
  match item with
  | kept i => if kind = .isAnti then .bool false else Archive.property archive i kind
  | added new => new.property archive kind

/-- The path by which the item is reported; a stored item without one is named by its position. -/
def path (item : OutputItem) (archive : α) : String :=
  match item with
  | kept i => (Archive.path? archive i).getD i.text
  | added new => new.path.text

/-- The number of bytes that the item reports. -/
def size (item : OutputItem) (archive : α) : Nat :=
  match item with
  | kept i => ((Archive.property archive i .size).uint64?).getD 0
  | added new => new.size archive

/-- The stored item that provides the data. -/
def stored? : OutputItem → Option StoredIndex
  | kept i => some i
  | added new => new.source.renamed?

/-- Whether the data does not come from the stored archive. -/
def hasNewData : OutputItem → Bool
  | kept _ => false
  | added new => new.source.renamed?.isNone

/-- Whether the properties do not all come from the stored archive. -/
def hasNewProperties : OutputItem → Bool
  | kept _ => false
  | added _ => true

/-- Opens the data: `none` where there is none to open. -/
def openData (item : OutputItem) (archive : α) (h : Host) :
    Except IoError (Option Reader) × α × Host :=
  match item with
  | kept i => (ItemSource.renamed i).openData archive h
  | added new => new.source.openData archive h

end OutputItem

/-- The state of a run. -/
structure Session (α ρ : Type) where
  archive : α
  host : Host
  items : List NewItem
  deletions : Deletions
  reporter : Option ρ
  phase : Phase := .uninitialized
  outcome : Option RunOutcome := none
  failures : FailureLog := {}
  /-- The number of items reported as successful, in a word of 32 bits. -/
  succeeded : Nat := 0
  /-- The number of items reported as failed, in a word of 32 bits. -/
  failed : Nat := 0
  /-- The number of bytes delivered to the engine. -/
  streamed : Nat := 0
  totalBytes : Nat := 0
  cancelled : Bool := false
  /-- The data handed out last. -/
  reading : Option Reader := none

/-- What is left of a run when it is over. -/
structure RunReport where
  outcome : Option RunOutcome
  succeeded : Nat
  failed : Nat
  streamed : Nat
  failures : FailureLog
  cancelled : Bool
  deriving DecidableEq, Repr

namespace Session

variable {α ρ : Type}

/-- Begins a run.  The marks have to belong to an archive of as many items. -/
def start [Archive α] (archive : α) (host : Host) (items : List NewItem) (deletions : Deletions)
    (reporter : Option ρ) : Except UpdateError (Session α ρ) :=
  if deletions.count = Archive.itemCount archive then
    .ok { archive, host, items, deletions, reporter }
  else .error (.invalidState "start an update" "configured for a different archive")

/-- What the run has come to. -/
def report (s : Session α ρ) : RunReport :=
  ⟨s.outcome, s.succeeded, s.failed, s.streamed, s.failures, s.cancelled⟩

/-- Gives back the source that was read last. -/
def release (s : Session α ρ) : Session α ρ :=
  match s.reading with
  | none => s
  | some r => { s with host := r.close s.host, reading := none }

/-- Passes something on to the reporter. -/
def tell (s : Session α ρ) (event : ρ → ρ) : Session α ρ :=
  { s with reporter := s.reporter.map event }

/-- The number of items of the finished archive. -/
def total (s : Session α ρ) : Nat := s.deletions.kept + s.items.length

/-- Counts the items, which makes the run active. -/
def countItems (s : Session α ρ) : Except UpdateError Nat × Session α ρ :=
  if s.phase = .finalizing then (.error (.invalidState "count items" s.phase.label), s)
  else if maxItems < s.total then (.error (.tooManyItems s.total), s)
  else (.ok s.total, { s with phase := .active })

/-- The item at an output position, for an operation of an active run. -/
def item (s : Session α ρ) (i : OutputIndex) (operation : String) :
    Except UpdateError OutputItem :=
  match s.phase with
  | .uninitialized | .finalizing => .error (.invalidState operation s.phase.label)
  | .active =>
    match Layout.of s.deletions s.items.length with
    | .error e => .error e
    | .ok layout =>
      match layout.resolve i with
      | .error e => .error e
      | .ok (.kept stored) => .ok (.kept stored)
      | .ok (.added position) =>
        match s.items[position]? with
        | some new => .ok (.added new)
        | none => .error (.indexOutOfRange position s.items.length)

section

variable [Archive α]

/-- What is known about an item. -/
def property (s : Session α ρ) (i : OutputIndex) (kind : PropertyKind) :
    Except UpdateError PropertyValue :=
  (s.item i "query item properties").map (·.property s.archive kind)

end

/-- Whether the data of an item does not come from the stored archive. -/
def hasNewData (s : Session α ρ) (i : OutputIndex) : Except UpdateError Bool :=
  (s.item i "query item state").map (·.hasNewData)

/-- Whether the properties of an item do not all come from the stored archive. -/
def hasNewProperties (s : Session α ρ) (i : OutputIndex) : Except UpdateError Bool :=
  (s.item i "query item state").map (·.hasNewProperties)

/-- The stored item behind an output position. -/
def storedIndex (s : Session α ρ) (i : OutputIndex) : Except UpdateError (Option StoredIndex) :=
  (s.item i "query item state").map (·.stored?)

variable [Archive α] [Reporter ρ]

/-- Whether the run is to be cancelled; the reporter is asked only until it is known. -/
def cancelRequested (s : Session α ρ) : Bool × Session α ρ :=
  if s.cancelled then (true, s)
  else match s.reporter with
    | none => (false, s)
    | some r =>
      let (stop, r) := Reporter.wantsCancel r
      (stop, { s with reporter := some r })

/-- Opens the source of an item that is known not to have failed before. -/
def openSource (s : Session α ρ) (i : OutputIndex) (item : OutputItem) :
    DataAnswer × Session α ρ :=
  let path := item.path s.archive
  let size := item.size s.archive
  let s := s.tell (Reporter.entryStart · path size)
  let (opened, archive, host) := item.openData s.archive s.host
  let s := { s with archive, host }
  match opened with
  | .ok (some r) => (.stream, { s with reading := some r })
  | .ok none => (.noData, s)
  | .error e =>
    let failure : FailedItem := ⟨i, path, e.message, e.kind⟩
    (.unavailable,
      { s with failures := s.failures.record failure }.tell (Reporter.warning · failure.text))

/-- Hands out the data of an item. -/
def data (s : Session α ρ) (i : OutputIndex) : Except UpdateError DataAnswer × Session α ρ :=
  match s.item i "open item data" with
  | .error e => (.error e, s)
  | .ok item =>
    match s.cancelRequested with
    | (true, s) => (.error .cancelled, { s with cancelled := true })
    | (false, s) =>
      if (s.failures.get? i).isSome then (.ok .unavailable, s)
      else
        let (answer, s) := s.openSource i item
        (.ok answer, s)

/-- Delivers bytes of the data handed out last. -/
def read (s : Session α ρ) (n : Nat) : Except IoError Bytes × Session α ρ :=
  match s.reading with
  | none => (.ok [], s)
  | some r =>
    match r.read s.host n with
    | (.ok bytes, r, host) =>
      (.ok bytes, { s with host, reading := some r, streamed := s.streamed + bytes.length })
    | (.error e, r, host) => (.error e, { s with host, reading := some r })

/-- Takes note of what became of an item.  A counter that is full starts again from 0; where sums
are checked, the program ends there instead. -/
def reportItem (s : Session α ρ) (i : OutputIndex) (outcome : ItemOutcome) :
    Except UpdateError Unit × Session α ρ :=
  match s.item i "report an item outcome" with
  | .error e => (.error e, s)
  | .ok item =>
    let path := item.path s.archive
    match outcome with
    | .success =>
      (.ok (), { s with succeeded := word32 (s.succeeded + 1) }.tell
        (Reporter.entryComplete · path true))
    | .failed _ =>
      (.ok (), { s with failed := word32 (s.failed + 1) }.tell
        (Reporter.entryComplete · path false))

/-- Takes note of what became of the run, which ends it. -/
def reportRun (s : Session α ρ) (outcome : RunOutcome) : Except UpdateError Unit × Session α ρ :=
  if s.phase = .finalizing then (.error (.invalidState "end the run" s.phase.label), s)
  else (.ok (), { s with phase := .finalizing, outcome := some outcome })

/-- Passes on the number of bytes done; the answer says whether the run goes on. -/
def setCompleted (s : Session α ρ) (bytes : Nat) : Bool × Session α ρ :=
  match s.reporter with
  | none => (!s.cancelled, s)
  | some r =>
    match Reporter.progress r bytes s.totalBytes with
    | (false, r) => (false, { s with reporter := some r, cancelled := true })
    | (true, r) =>
      let (stop, r) := Reporter.wantsCancel r
      let cancelled := s.cancelled || stop
      (!cancelled, { s with reporter := some r, cancelled })

/-- Answers a request; every request but a read ends the reading of the data handed out last. -/
def answer (s : Session α ρ) : (q : Request) → q.Reply × Session α ρ
  | .read n => s.read n
  | .countItems => s.release.countItems
  | .property i kind => (s.release.property i kind, s.release)
  | .data i => s.release.data i
  | .hasNewData i => (s.release.hasNewData i, s.release)
  | .hasNewProperties i => (s.release.hasNewProperties i, s.release)
  | .storedIndex i => (s.release.storedIndex i, s.release)
  | .reportItem i outcome => s.release.reportItem i outcome
  | .reportRun outcome => s.release.reportRun outcome
  | .setTotal bytes =>
    ((), { s.release with totalBytes := bytes }.tell (Reporter.total · bytes))
  | .setCompleted bytes => s.release.setCompleted bytes
  | .setRatio input output => ((), s.release.tell (Reporter.ratio · input output))
  | .interrupt => ((), s.release.tell Reporter.interrupt)

end Session

end ArchiveUpdate
