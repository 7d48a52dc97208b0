/-!
# Points in time

Archives store a point in time as the number of 100-nanosecond ticks since the start of the year
1601; files carry seconds and nanoseconds around the start of 1970 (`UnixTime`); a clock gives a
signed distance from the same instant in nanoseconds (`Instant`).  A conversion into ticks answers
`none` when the point lies before 1601 or beyond the last 64-bit tick.
-/

set_option autoImplicit false

namespace ArchiveUpdate

/-- A point in time in ticks of 100 nanoseconds since the start of 1601, which 64 bits hold. -/
structure Timestamp where
  ticks : Nat
  isLt : ticks < 18446744073709551616
  deriving DecidableEq, Repr

/-- A point in time as files carry it: whole seconds since the start of 1970, rounded down, and the
nanoseconds beyond them. -/
structure UnixTime where
  seconds : Int
  nanos : Nat
  deriving DecidableEq, Repr, Inhabited

/-- A point in time as a signed number of nanoseconds since the start of 1970. -/
structure Instant where
  nanos : Int
  deriving DecidableEq, Repr, Inhabited

namespace UnixTime

/-- Whether a point in time is not later than another. -/
def notAfter (a b : UnixTime) : Bool :=
  a.seconds < b.seconds || a.seconds = b.seconds && a.nanos ≤ b.nanos

end UnixTime

namespace Timestamp

/-- The ticks from the start of 1601 to the start of 1970. -/
def unixEpoch : Nat := 116444736000000000

/-- The ticks of one second. -/
def perSecond : Nat := 10000000

/-- The nanoseconds of one tick. -/
def nanosPerTick : Nat := 100

/-- The nanoseconds of one second. -/
def nanosPerSecond : Nat := 1000000000

instance : Inhabited Timestamp := ⟨⟨0, by decide⟩⟩

instance : Ord Timestamp := ⟨fun a b => compare a.ticks b.ticks⟩

/-- The point with this number of ticks, if 64 bits hold it. -/
def ofTicks? (ticks : Nat) : Option Timestamp :=
  if h : ticks < 18446744073709551616 then some ⟨ticks, h⟩ else none

/-- The greatest number of whole seconds that a time has: what 64 bits with a sign hold. -/
def maxSeconds : Nat := 9223372036854775807

/-- The tick in which a time of whole seconds and nanoseconds falls. -/
def ofUnix? (t : UnixTime) : Option Timestamp :=
  let whole := t.seconds.natAbs * perSecond
  let part := t.nanos / nanosPerTick
  if 0 ≤ t.seconds then ofTicks? (unixEpoch + whole + part)
  else if whole ≤ unixEpoch then ofTicks? (unixEpoch - whole + part)
  else none

/-- The tick of a clock's instant.  Before 1970 the distance to 1970 is what is cut to whole ticks.
-/
def ofInstant? (t : Instant) : Option Timestamp :=
  if 0 ≤ t.nanos then
    let seconds := t.nanos.toNat / nanosPerSecond
    if seconds ≤ maxSeconds then ofUnix? ⟨seconds, t.nanos.toNat % nanosPerSecond⟩ else none
  else
    let before := t.nanos.natAbs / nanosPerTick
    if before ≤ unixEpoch then ofTicks? (unixEpoch - before) else none

/-- The whole seconds since the start of 1970, rounded down. -/
def unixSeconds (t : Timestamp) : Int :=
  if unixEpoch ≤ t.ticks then ((t.ticks - unixEpoch) / perSecond : Nat)
  else -((unixEpoch - t.ticks + (perSecond - 1)) / perSecond : Nat)

/-- The time of whole seconds and nanoseconds at which the tick begins. -/
def unix (t : Timestamp) : UnixTime := ⟨t.unixSeconds, t.ticks % perSecond * nanosPerTick⟩

/-- The instant at which the tick begins. -/
def instant (t : Timestamp) : Instant :=
  ⟨((t.ticks : Int) - unixEpoch) * nanosPerTick⟩

end Timestamp

end ArchiveUpdate
