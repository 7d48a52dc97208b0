/-!
# Progress reports and cancellation

A `Reporter` is told what happens in a run and may ask for its end, either by its answer to a byte
count or when it is asked whether it wants to cancel.  Answers may change the reporter, so nothing
is assumed about two answers in a row.  The reporters of this module are `Silent`, `Statistics`,
`SharedProgress` and `Callback`.
-/

set_option autoImplicit false

namespace ArchiveUpdate

/-- A listener to the progress of a run; a reporter that defines nothing ignores everything and
never cancels. -/
class Reporter (ρ : Type) where
  /-- The number of bytes that the run is going to process. -/
  total : ρ → Nat → ρ := fun r _ => r
  /-- Bytes processed so far, out of a total; answering `false` cancels the run. -/
  progress : ρ → Nat → Nat → Bool × ρ := fun r _ _ => (true, r)
  /-- Bytes read and bytes written so far. -/
  ratio : ρ → Nat → Nat → ρ := fun r _ _ => r
  /-- The data of an item of this path and size is about to be opened. -/
  entryStart : ρ → String → Nat → ρ := fun r _ _ => r
  /-- The engine is done with an item, successfully or not. -/
  entryComplete : ρ → String → Bool → ρ := fun r _ _ => r
  /-- Something went wrong that does not end the run. -/
  warning : ρ → String → ρ := fun r _ => r
  /-- Whether the run is to be cancelled. -/
  wantsCancel : ρ → Bool × ρ := fun r => (false, r)
  /-- Someone outside of the run asks for its end; a reporter without a switch ignores it. -/
  interrupt : ρ → ρ := fun r => r

/-- The share of a total in percent; nothing of nothing is 0 %. -/
def percentage (processed total : Nat) : Float :=
  if total = 0 then 0.0 else processed.toUInt64.toFloat / total.toUInt64.toFloat * 100.0

/-- A reporter that ignores everything. -/
structure Silent where
  deriving DecidableEq, Repr, Inhabited

instance : Reporter Silent where

/-- A reporter that remembers the latest numbers, counts items and collects warnings. -/
structure Statistics where
  totalBytes : Nat := 0
  processedBytes : Nat := 0
  packedBytes : Nat := 0
  currentEntry : Option String := none
  entriesProcessed : Nat := 0
  entriesFailed : Nat := 0
  cancelled : Bool := false
  warnings : List String := []
  deriving DecidableEq, Repr, Inhabited

namespace Statistics

/-- The processed share of the total in percent. -/
def percentage (s : Statistics) : Float :=
  ArchiveUpdate.percentage s.processedBytes s.totalBytes

/-- Bytes written for each byte processed, 1 before any byte was processed. -/
def compressionRatio (s : Statistics) : Float :=
  if s.processedBytes = 0 then 1.0
  else s.packedBytes.toUInt64.toFloat / s.processedBytes.toUInt64.toFloat

instance : Reporter Statistics where
  total s n := { s with totalBytes := n }
  progress s processed _ := (!s.cancelled, { s with processedBytes := processed })
  ratio s _ packed := { s with packedBytes := packed }
  entryStart s name _ := { s with currentEntry := some name }
  entryComplete s _ success :=
    { s with
      currentEntry := none
      entriesProcessed := s.entriesProcessed + 1
      entriesFailed := if success then s.entriesFailed else s.entriesFailed + 1 }
  warning s message := { s with warnings := s.warnings ++ [message] }
  wantsCancel s := (s.cancelled, s)
  interrupt s := { s with cancelled := true }

end Statistics

/-- A reporter whose few numbers can be read by others while the run goes on. -/
structure SharedProgress where
  totalBytes : Nat := 0
  processedBytes : Nat := 0
  entriesProcessed : Nat := 0
  cancelled : Bool := false
  deriving DecidableEq, Repr, Inhabited

namespace SharedProgress

/-- The processed share of the total in percent. -/
def percentage (s : SharedProgress) : Float :=
  ArchiveUpdate.percentage s.processedBytes s.totalBytes

instance : Reporter SharedProgress where
  total s n := { s with totalBytes := n }
  progress s processed _ := (!s.cancelled, { s with processedBytes := processed })
  entryComplete s _ _ := { s with entriesProcessed := s.entriesProcessed + 1 }
  wantsCancel s := (s.cancelled, s)
  interrupt s := { s with cancelled := true }

end SharedProgress

/-- A reporter made of a function that is called with every byte count and decides whether the run
goes on; `σ` is what the function remembers. -/
structure Callback (σ : Type) where
  state : σ
  decide : σ → Nat → Nat → Bool × σ

namespace Callback

variable {σ : Type}

instance : Reporter (Callback σ) where
  progress c processed total :=
    let (goOn, state) := c.decide c.state processed total
    (goOn, { c with state })

end Callback

end ArchiveUpdate
