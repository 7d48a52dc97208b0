import ArchiveUpdate.Addition
import ArchiveUpdate.Run.Engine

/-!
# Updating an archive

An `Updater` collects the changes to an archive: items to add, stored items to delete, rename or
replace.  `Updater.change` carries out one `Change`; one that fails leaves the updater as it was.
`Updater.compress` runs an engine over the finished archive that the changes describe, as often as
wanted; the changes stay as they are.
-/

set_option autoImplicit false

namespace ArchiveUpdate

/-- The changes to an archive that have been collected. -/
structure Updater (α ρ : Type) where
  archive : α
  items : List NewItem := []
  deletions : Deletions
  options : UpdateOptions ρ := {}
  /-- The items whose data could not be opened in the latest run. -/
  lastFailures : FailureLog := {}

/-- A call that changes what the finished archive holds. -/
inductive Change where
  | add (addition : Addition)
  | deleteItem (i : StoredIndex) (policy : DeletePolicy)
  | deletePath (path : String) (policy : DeletePolicy)
  | renameItem (i : StoredIndex) (path : String)
  | renamePath (old new : String)
  | replaceBuffer (i : StoredIndex) (data : Bytes)
  | replaceFile (i : StoredIndex) (path : DiskPath)
  | replaceStream (i : StoredIndex) (id : Nat)

/-- What a successful run did. -/
structure RunSummary where
  kept : Nat
  deleted : Nat
  added : Nat
  succeeded : Nat
  failed : Nat
  streamed : Nat
  failures : FailureLog
  deriving DecidableEq, Repr

namespace RunSummary

/-- The number of items of the finished archive, in a word of 32 bits. -/
def total (r : RunSummary) : Nat := word32 (r.kept + r.added)

/-- Whether every item made it into the finished archive. -/
def isComplete (r : RunSummary) : Bool := r.failures.isEmpty && r.failed = 0

end RunSummary

/-- What a run leaves behind: its result, what the engine has to tell besides if it came to
work, and the updater and the world after it. -/
structure Compression (α ρ β : Type) where
  result : Except UpdateError RunSummary
  told : Option β
  updater : Updater α ρ
  host : Host

/-- A text without the slashes at its end. -/
def trimSlashes (cs : List Char) : List Char := (cs.reverse.dropWhile (· = '/')).reverse

namespace Archive

variable {α : Type} [Archive α]

/-- The items whose paths begin with the path of an item and a slash; an item without a path has
none below it. -/
def below (a : α) (dir : StoredIndex) : List StoredIndex :=
  match path? a dir with
  | none => []
  | some path =>
    let start := trimSlashes path.toList ++ ['/']
    (indices a).filter fun i => (path? a i).any fun p => start.isPrefixOf p.toList

end Archive

namespace Updater

variable {α ρ : Type} [Archive α]

/-- An updater of an archive, without changes. -/
def ofArchive (archive : α) : Updater α ρ :=
  { archive, deletions := .empty (Archive.itemCount archive) }

/-- One line about the updater; the archive is shown by the name of its sort. -/
def description (u : Updater α ρ) (archiveName : String) : String :=
  let marks := ", ".intercalate (u.deletions.members.map fun m => s!"OriginalIndex({m})")
  s!"ArchiveUpdater \x7b archive: {archiveName}, items: {u.items.length}, " ++
  s!"deletions: DeletionSet \x7b original_count: {u.deletions.count}, indices: " ++
  "\x7b" ++ marks ++ s!"\x7d \x7d, options: {u.options.description} \x7d"

/-- The first stored item with a path. -/
def find (u : Updater α ρ) (path : String) : Except UpdateError StoredIndex :=
  match Archive.find? u.archive path with
  | some i => .ok i
  | none => .error (.entryNotFound path)

/-- Marks stored items one after the other, up to the first that cannot be marked. -/
def mark (u : Updater α ρ) : List StoredIndex → Except UpdateError Unit × Updater α ρ
  | [] => (.ok (), u)
  | i :: is =>
    match u.deletions.insert i with
    | .error e => (.error e, u)
    | .ok (_, deletions) => { u with deletions }.mark is

/-- Deletes a stored item and, if that is wanted and it is a directory, what lies below it. -/
def deleteItem (u : Updater α ρ) (i : StoredIndex) (policy : DeletePolicy) :
    Except UpdateError Unit × Updater α ρ :=
  match u.deletions.insert i with
  | .error e => (.error e, u)
  | .ok (_, deletions) =>
    let u := { u with deletions }
    if policy = .recurseDirs ∧ Archive.property u.archive i .isDir = .bool true then
      u.mark (Archive.below u.archive i)
    else (.ok (), u)

/-- Deletes the first stored item with a path; slashes at the end of the path count for nothing
unless there is nothing else. -/
def deletePath (u : Updater α ρ) (path : String) (policy : DeletePolicy) :
    Except UpdateError Unit × Updater α ρ :=
  let trimmed := String.ofList (trimSlashes path.toList)
  match u.find (if trimmed.isEmpty then path else trimmed) with
  | .error e => (.error e, u)
  | .ok i => u.deleteItem i policy

/-- Marks a stored item for which a new item stands in. -/
def take (u : Updater α ρ) (i : StoredIndex) : Except UpdateError Unit × Updater α ρ :=
  match u.deletions.insert i with
  | .error e => (.error e, u)
  | .ok (false, _) => (.error (.itemRemoved i.val), u)
  | .ok (true, deletions) => (.ok (), { u with deletions })

/-- Puts a new item in the place of a stored one. -/
def substitute (u : Updater α ρ) (i : StoredIndex) (new : List NewItem) :
    Except UpdateError Unit × Updater α ρ :=
  match u.take i with
  | (.error e, u) => (.error e, u)
  | (.ok (), u) => (.ok (), { u with items := u.items ++ new })

/-- Gives a stored item another path. -/
def renameItem (u : Updater α ρ) (i : StoredIndex) (path : String) :
    Except UpdateError Unit × Updater α ρ :=
  match ItemPath.parse path with
  | .error e => (.error e, u)
  | .ok path => u.substitute i [⟨path, .renamed i⟩]

/-- Gives the first stored item with a path another path. -/
def renamePath (u : Updater α ρ) (old new : String) : Except UpdateError Unit × Updater α ρ :=
  match u.find old with
  | .error e => (.error e, u)
  | .ok i => u.renameItem i new

/-- The path of a stored item, for a new item that takes its place. -/
def storedPath (u : Updater α ρ) (i : StoredIndex) : Except UpdateError ItemPath :=
  if Archive.itemCount u.archive ≤ i.val then
    .error (.indexOutOfRange i.val (Archive.itemCount u.archive))
  else ItemPath.parse ((Archive.path? u.archive i).getD "")

/-- Adds items. -/
def add (u : Updater α ρ) (h : Host) (addition : Addition) :
    Except UpdateError Unit × Updater α ρ × Host :=
  match addition.items u.options.index h with
  | (.error e, h) => (.error e, u, h)
  | (.ok new, h) => (.ok (), { u with items := u.items ++ new }, h)

/-- Puts the item that a call adds in the place of a stored one, under the same path. -/
def replace (u : Updater α ρ) (h : Host) (i : StoredIndex) (addition : (name : String) → Addition) :
    Except UpdateError Unit × Updater α ρ × Host :=
  match u.storedPath i with
  | .error e => (.error e, u, h)
  | .ok path =>
    match (addition path.text).items u.options.index h with
    | (.error e, h) => (.error e, u, h)
    | (.ok new, h) =>
      let (answer, u) := u.substitute i new
      (answer, u, h)

/-- Carries out a change. -/
def change (u : Updater α ρ) (h : Host) : Change → Except UpdateError Unit × Updater α ρ × Host
  | .add addition => u.add h addition
  | .deleteItem i policy => let (answer, u) := u.deleteItem i policy; (answer, u, h)
  | .deletePath path policy => let (answer, u) := u.deletePath path policy; (answer, u, h)
  | .renameItem i path => let (answer, u) := u.renameItem i path; (answer, u, h)
  | .renamePath old new => let (answer, u) := u.renamePath old new; (answer, u, h)
  | .replaceBuffer i data => u.replace h i (.buffer data)
  | .replaceFile i path => u.replace h i (.file path)
  | .replaceStream i id => u.replace h i (.stream id)

/-- The stored items that share their path with a new item. -/
def shadowed (u : Updater α ρ) : List StoredIndex :=
  (Archive.indices u.archive).filter fun i =>
    (Archive.path? u.archive i).any fun p => u.items.any (·.path.text = p)

/-- The marks of a run: when new items overwrite stored ones, those they share a path with are
marked as well. -/
def runDeletions (u : Updater α ρ) : Deletions :=
  match u.options.mode with
  | .append => u.deletions
  | .overwrite => if u.items.isEmpty then u.deletions else u.deletions.insertAll u.shadowed

/-- The number of items of the finished archive, or the greatest possible one if there are more. -/
def totalItemCount (u : Updater α ρ) : Nat :=
  min maxItems (u.runDeletions.kept + u.items.length)

/-- The result of a run whose engine did not fail itself.  The new items are counted in a word of 32
bits. -/
def conclude (deletions : Deletions) (items : List NewItem) (r : RunReport) :
    Except UpdateError RunSummary :=
  match r.outcome, r.cancelled with
  | some (.failed reason), _ => .error (.engineFailure reason)
  | some .cancelled, _ | none, true => .error .cancelled
  | some .success, _ | none, false =>
    .ok ⟨deletions.kept, deletions.size, word32 items.length, r.succeeded, r.failed, r.streamed,
      r.failures⟩

/-- Runs an engine over the finished archive.  A failure of the engine itself comes before the
outcome that it reported. -/
def compress [Reporter ρ] {β : Type} (u : Updater α ρ) (h : Host)
    (engine : Engine (Except UpdateError Unit × β)) : Compression α ρ β :=
  let deletions := u.runDeletions
  match Session.start u.archive h u.items deletions u.options.reporter with
  | .error e => ⟨.error e, none, u, h⟩
  | .ok s =>
    let ((answer, told), s) := engine.run s
    let s := s.release
    { result := answer.bind fun () => conclude deletions u.items s.report
      told := some told
      updater :=
        { u with
          archive := s.archive
          options := { u.options with reporter := s.reporter }
          lastFailures := s.failures }
      host := s.host }

end Updater

end ArchiveUpdate
