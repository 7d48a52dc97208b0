import ArchiveUpdate.Proofs.TickRounding

/-!
# Tick arithmetic in machine words

Points in time are converted in words of 64 bits, where a step whose exact result the word does not
hold must not go unnoticed (`Word.hold?`).  Seconds and nanoseconds are given a tick exactly if the
tick in which they fall fits into a word, although the steps on the way are tested one by one
(`unix_times_fall_into_ticks`).  The other way no step can fail: every tick has its second and its
instant, and the instant leads back to the tick (`instants_lead_back_to_ticks`).
-/

set_option autoImplicit false

namespace ArchiveUpdate

/-- A machine word, told by the whole numbers that it holds: those from `low` on below `high`. -/
structure Word where
  low : Int
  high : Int

namespace Word

/-- 64 bits without a sign. -/
def unsigned64 : Word := ⟨0, 18446744073709551616⟩

/-- 64 bits with a sign. -/
def signed64 : Word := ⟨-9223372036854775808, 9223372036854775808⟩

/-- 32 bits without a sign. -/
def unsigned32 : Word := ⟨0, 4294967296⟩

/-- Whether a word holds a number. -/
def Holds (w : Word) (k : Int) : Prop := w.low ≤ k ∧ k < w.high

instance (w : Word) (k : Int) : Decidable (w.Holds k) := inferInstanceAs (Decidable (_ ∧ _))

/-- What a step of arithmetic or a conversion leaves in a word: the exact number, if the word holds
it. -/
def hold? (w : Word) (k : Int) : Option Int := if w.Holds k then some k else none

variable {w : Word} {k : Int}

/-- The numbers in 64 bits without a sign. -/
theorem holds_unsigned64 : unsigned64.Holds k ↔ 0 ≤ k ∧ k < 18446744073709551616 := Iff.rfl

/-- The numbers in 64 bits with a sign. -/
theorem holds_signed64 :
    signed64.Holds k ↔ -9223372036854775808 ≤ k ∧ k < 9223372036854775808 := Iff.rfl

/-- The numbers in 32 bits without a sign. -/
theorem holds_unsigned32 : unsigned32.Holds k ↔ 0 ≤ k ∧ k < 4294967296 := Iff.rfl

/-- A step goes on with the exact number if the word holds it, and fails otherwise. -/
theorem bind_hold? {α : Type} (w : Word) (k : Int) (f : Int → Option α) :
    (w.hold? k >>= f) = if w.Holds k then f k else none := by
  unfold hold?
  split <;> rfl

/-- A number of ticks is a point in time exactly if 64 bits without a sign hold it. -/
theorem map_ticks_ofTicks? (n : Nat) :
    (Timestamp.ofTicks? n).map (fun s => (s.ticks : Int)) = unsigned64.hold? n := by
  unfold Timestamp.ofTicks? hold?
  by_cases hn : n < 18446744073709551616
  · rw [dif_pos hn, if_pos (holds_unsigned64.2 (by omega))]
    rfl
  · rw [dif_neg hn, if_neg (mt holds_unsigned64.1 (by omega))]
    rfl

end Word

open Word Timestamp

/-- The ticks of seconds and nanoseconds, step by step: those of the whole seconds, counted from
1601, and then those of the nanoseconds beyond them. -/
def UnixTime.ticksInWords? (t : UnixTime) : Option Int := do
  let whole ← unsigned64.hold? (t.seconds.natAbs * perSecond)
  let start ←
    if 0 ≤ t.seconds then unsigned64.hold? (unixEpoch + whole)
    else unsigned64.hold? (unixEpoch - whole)
  unsigned64.hold? (start + (t.nanos / nanosPerTick : Nat))

/-- The ticks of an instant, step by step: from 1970 on by way of seconds and nanoseconds, before
1970 as the ticks of the distance taken away from those of 1970. -/
def Instant.ticksInWords? (t : Instant) : Option Int :=
  if 0 ≤ t.nanos then do
    let seconds ← unsigned64.hold? (t.nanos.toNat / nanosPerSecond : Nat)
    let seconds ← signed64.hold? seconds
    UnixTime.ticksInWords? ⟨seconds, t.nanos.toNat % nanosPerSecond⟩
  else do
    let seconds ← unsigned64.hold? (t.nanos.natAbs / nanosPerSecond : Nat)
    let whole ← unsigned64.hold? (seconds * perSecond)
    let before ← unsigned64.hold?
      (whole + (t.nanos.natAbs % nanosPerSecond / nanosPerTick : Nat))
    unsigned64.hold? (unixEpoch - before)

namespace Timestamp

/-- The distance to 1970 in ticks. -/
def distanceInWords? (t : Timestamp) : Option Int :=
  if unixEpoch ≤ t.ticks then unsigned64.hold? (t.ticks - unixEpoch)
  else unsigned64.hold? (unixEpoch - t.ticks)

/-- The whole seconds since the start of 1970, step by step; before 1970 a part of a second counts
as one more before the sign is changed. -/
def unixSecondsInWords? (t : Timestamp) : Option Int := do
  let distance ← t.distanceInWords?
  if unixEpoch ≤ t.ticks then signed64.hold? (distance / perSecond)
  else
    let seconds ← unsigned64.hold?
      (distance / perSecond + if distance % perSecond = 0 then 0 else 1)
    let seconds ← signed64.hold? seconds
    signed64.hold? (-seconds)

/-- The instant at which the tick begins, step by step: the distance to 1970 as whole seconds and
nanoseconds, where whole seconds among the nanoseconds would be carried over, and then the instant
at that distance, of which a clock keeps the whole seconds in 64 bits with a sign. -/
def instantInWords? (t : Timestamp) : Option Instant := do
  let distance ← t.distanceInWords?
  let nanos ← unsigned64.hold? (distance % perSecond * nanosPerTick)
  let nanos ← unsigned32.hold? nanos
  let seconds ← unsigned64.hold? (distance / perSecond + nanos / nanosPerSecond)
  let length := seconds * nanosPerSecond + nanos % nanosPerSecond
  let nanos := if unixEpoch ≤ t.ticks then length else -length
  let _ ← signed64.hold? (nanos / nanosPerSecond)
  pure ⟨nanos⟩

end Timestamp

/-- Step by step the ticks are the same: a step that no word holds leads to none that one does. -/
theorem UnixTime.ticksInWords?_eq (t : UnixTime) :
    t.ticksInWords? = (ofUnix? t).map fun s => (s.ticks : Int) := by
  unfold UnixTime.ticksInWords? ofUnix?
  simp only [bind_hold?]
  -- From 1970 on every step only adds, so what is too large once stays too large; before 1970 the
  -- product is too large only if it also exceeds the ticks of 1970.
  by_cases hsign : 0 ≤ t.seconds
  · simp only [if_pos hsign, map_ticks_ofTicks?, hold?, holds_unsigned64]
    simp only [perSecond, unixEpoch, nanosPerTick]
    grind
  · simp only [if_neg hsign, apply_ite (Option.map _), map_ticks_ofTicks?, Option.map_none, hold?,
      holds_unsigned64]
    simp only [perSecond, unixEpoch, nanosPerTick]
    grind

/-- Step by step in words an instant has the ticks that it has in whole numbers, and none where it
has none. -/
theorem Instant.ticksInWords?_eq (t : Instant) :
    t.ticksInWords? = (ofInstant? t).map fun s => (s.ticks : Int) := by
  unfold Instant.ticksInWords? ofInstant?
  simp only [bind_hold?]
  by_cases hsign : 0 ≤ t.nanos
  · simp only [if_pos hsign, apply_ite (Option.map _), Option.map_none, UnixTime.ticksInWords?_eq,
      holds_unsigned64, holds_signed64]
    generalize t.nanos.toNat / nanosPerSecond = seconds
    simp only [maxSeconds]
    grind
  · simp only [if_neg hsign, apply_ite (Option.map _), map_ticks_ofTicks?, Option.map_none, hold?,
      holds_unsigned64]
    simp only [perSecond, unixEpoch, nanosPerTick, nanosPerSecond]
    grind

namespace Timestamp

/-- The seconds of a point in time are the distance of its ticks to 1970, rounded down. -/
theorem unixSeconds_eq (t : Timestamp) :
    t.unixSeconds = ((t.ticks : Int) - unixEpoch) / perSecond := by
  unfold unixSeconds
  by_cases hpast : unixEpoch ≤ t.ticks
  · rw [if_pos hpast]
    simp only [unixEpoch, perSecond] at hpast ⊢
    omega
  · rw [if_neg hpast]
    simp only [unixEpoch, perSecond] at hpast ⊢
    omega

/-- No distance between a tick and 1970 is too long for a word. -/
theorem bind_distanceInWords? {α : Type} (t : Timestamp) (f : Int → Option α) :
    (t.distanceInWords? >>= f) = f ((t.ticks : Int) - unixEpoch).natAbs := by
  have hdistance : t.distanceInWords? = some (((t.ticks : Int) - unixEpoch).natAbs : Int) := by
    have hlt := t.isLt
    unfold distanceInWords?
    simp only [hold?, holds_unsigned64, unixEpoch]
    grind
  rw [hdistance]
  rfl

/-- Step by step in words the seconds are the same, and no step fails. -/
theorem unixSecondsInWords?_eq (t : Timestamp) : t.unixSecondsInWords? = some t.unixSeconds := by
  have hlt := t.isLt
  unfold unixSecondsInWords?
  rw [bind_distanceInWords?, unixSeconds_eq]
  simp only [bind_hold?]
  simp only [hold?, holds_unsigned64, holds_signed64, unixEpoch, perSecond]
  grind

/-- Step by step in words the instant is the same, and no step fails. -/
theorem instantInWords?_eq (t : Timestamp) : t.instantInWords? = some t.instant := by
  have hlt := t.isLt
  unfold instantInWords? instant
  rw [bind_distanceInWords?]
  -- Less than a second is left for the nanoseconds, so nothing is carried over to the seconds.
  simp only [bind_hold?, holds_unsigned64, holds_unsigned32, holds_signed64]
  simp only [unixEpoch, perSecond, nanosPerTick, nanosPerSecond]
  grind

/-- The instant of a point in time leads back to it. -/
theorem ofInstant?_instant (t : Timestamp) : ofInstant? t.instant = some t := by
  rw [ofInstant?_eq, ofTick?_eq_some_iff, instant, Int.mul_tdiv_cancel]
  · omega
  · decide

/-- There is a point with a number of ticks exactly if 64 bits hold the number. -/
theorem exists_ofTick?_iff {k : Int} :
    (∃ s, ofTick? k = some s) ↔ 0 ≤ k ∧ k < 18446744073709551616 := by
  rw [← Option.isSome_iff_exists, ← Option.ne_none_iff_isSome, ne_eq, ofTick?_eq_none_iff]
  omega

/-- A time of seconds and nanoseconds is given a point exactly if 64 bits hold the tick in which it
falls, and then that tick; its whole seconds are read off the point again, and a later time is given
no earlier point.  Step by step in words the outcome is the same. -/
theorem unix_times_fall_into_ticks {t : UnixTime} (ht : t.nanos < nanosPerSecond) :
    let tick : Int := unixEpoch + t.seconds * perSecond + (t.nanos / nanosPerTick : Nat)
    ((∃ s, ofUnix? t = some s) ↔ 0 ≤ tick ∧ tick < 18446744073709551616) ∧
      (∀ s, ofUnix? t = some s → s.ticks = tick ∧ s.unixSeconds = t.seconds) ∧
      (∀ t' s s', t'.nanos < nanosPerSecond →
        t.seconds < t'.seconds ∨ t.seconds = t'.seconds ∧ t.nanos ≤ t'.nanos →
        ofUnix? t = some s → ofUnix? t' = some s' → s.ticks ≤ s'.ticks) ∧
      t.ticksInWords? = (ofUnix? t).map fun s => (s.ticks : Int) := by
  intro tick
  have hunix : ofUnix? t = ofTick? tick := ofUnix?_eq ht
  refine ⟨?_, ?_, ?_, t.ticksInWords?_eq⟩
  · rw [hunix, exists_ofTick?_iff]
  · intro s hs
    rw [hunix, ofTick?_eq_some_iff] at hs
    refine ⟨hs.symm, ?_⟩
    rw [unixSeconds_eq, ← hs]
    simp only [tick, unixEpoch, perSecond, nanosPerTick, nanosPerSecond] at ht ⊢
    omega
  · intro t' s s' ht' hle hs hs'
    rw [ofUnix?_eq ht, ofTick?_eq_some_iff] at hs
    rw [ofUnix?_eq ht', ofTick?_eq_some_iff] at hs'
    simp only [unixEpoch, perSecond, nanosPerTick, nanosPerSecond] at ht ht' hs hs'
    omega

/-- Fifty nanoseconds before 1970 fall into the last tick of 1969, whose second is the last of that
year; the time that many nanoseconds after the start of 1970 is given the next tick. -/
theorem unix_times_fall_into_ticks_around_1970 :
    let t : UnixTime := ⟨-1, 999999950⟩
    let t' : UnixTime := ⟨0, 50⟩
    t.nanos < nanosPerSecond ∧ t'.nanos < nanosPerSecond ∧
      ∃ s s', ofUnix? t = some s ∧ s.ticks = 116444735999999999 ∧ s.unixSeconds = -1 ∧
        ofUnix? t' = some s' ∧ s.ticks ≤ s'.ticks ∧
        t.ticksInWords? = some 116444735999999999 := by
  intro t t'
  have ht : t.nanos < nanosPerSecond := by decide
  have ht' : t'.nanos < nanosPerSecond := by decide
  obtain ⟨hexists, hexact, hmono, hwords⟩ := unix_times_fall_into_ticks ht
  obtain ⟨s, hs⟩ := hexists.2 (by decide)
  obtain ⟨hticks, hseconds⟩ := hexact s hs
  obtain ⟨s', hs'⟩ := (unix_times_fall_into_ticks ht').1.2 (by decide)
  have hvalue : (s.ticks : Int) = 116444735999999999 := hticks.trans (by decide)
  refine ⟨ht, ht', s, s', hs, by omega, hseconds, hs', ?_, ?_⟩
  · exact hmono t' s s' ht' (.inl (by decide)) hs hs'
  · rw [hwords, hs, Option.map_some, hvalue]

/-- From a point in time to the clock's instant and back nothing is lost, and a later point has a
later instant.  The seconds of a point are those that have passed since 1970, rounded down.  Step by
step in words the outcomes are the same, so that no step and no conversion leaves its word. -/
theorem instants_lead_back_to_ticks (t : Timestamp) :
    ofInstant? t.instant = some t ∧
      (∀ t' : Timestamp, t.instant.nanos < t'.instant.nanos ↔ t.ticks < t'.ticks) ∧
      t.unixSeconds = ((t.ticks : Int) - unixEpoch) / perSecond ∧
      t.instantInWords? = some t.instant ∧
      t.instant.ticksInWords? = some (t.ticks : Int) ∧
      t.unixSecondsInWords? = some t.unixSeconds := by
  have hback := t.ofInstant?_instant
  refine ⟨hback, ?_, t.unixSeconds_eq, t.instantInWords?_eq, ?_, t.unixSecondsInWords?_eq⟩
  · intro t'
    simp only [instant, nanosPerTick]
    omega
  · rw [Instant.ticksInWords?_eq, hback, Option.map_some]

end Timestamp

end ArchiveUpdate
