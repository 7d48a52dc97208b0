import ArchiveUpdate.Progress

/-!
# Keeping a record of what a reporter was told

`Recording` stands in front of another reporter: it passes everything on and writes down, in order,
what was told and how byte counts were answered.  Questions whether to cancel are passed on without
a record.
-/

set_option autoImplicit false

namespace ArchiveUpdate

/-- Something that a reporter was told. -/
inductive ProgressEvent where
  | total (bytes : Nat)
  /-- A byte count, and whether the reporter let the run go on. -/
  | progress (processed total : Nat) (goOn : Bool)
  | ratio (input output : Nat)
  | entryStart (name : String) (size : Nat)
  | entryComplete (name : String) (success : Bool)
  | warning (message : String)
  deriving DecidableEq, Repr

/-- A reporter with a record of what it was told. -/
structure Recording (ρ : Type) where
  inner : ρ
  events : List ProgressEvent := []

namespace Recording

variable {ρ : Type}

/-- The record with another event, in front of the reporter as it is after that. -/
def note (r : Recording ρ) (inner : ρ) (event : ProgressEvent) : Recording ρ :=
  ⟨inner, r.events ++ [event]⟩

instance [Reporter ρ] : Reporter (Recording ρ) where
  total r n := r.note (Reporter.total r.inner n) (.total n)
  progress r processed total :=
    let (goOn, inner) := Reporter.progress r.inner processed total
    (goOn, r.note inner (.progress processed total goOn))
  ratio r input output := r.note (Reporter.ratio r.inner input output) (.ratio input output)
  entryStart r name size := r.note (Reporter.entryStart r.inner name size) (.entryStart name size)
  entryComplete r name success :=
    r.note (Reporter.entryComplete r.inner name success) (.entryComplete name success)
  warning r message := r.note (Reporter.warning r.inner message) (.warning message)
  wantsCancel r :=
    let (stop, inner) := Reporter.wantsCancel r.inner
    (stop, { r with inner })
  interrupt r := { r with inner := Reporter.interrupt r.inner }

end Recording

end ArchiveUpdate
