import ArchiveUpdate.Timestamp

/-!
# Which tick a point in time is given

Both conversions into ticks come to a tick counted from 1601 in whole numbers, which 64 bits hold or
not (`ofTick?`).  Seconds and nanoseconds are given the tick in which they fall (`ofUnix?_eq`); an
instant of a clock is given the tick that its distance to 1970 leaves when it is cut to whole ticks
(`ofInstant?_eq`).  From 1970 on the two are the same; before 1970 the second is one tick too late
for every instant that is no whole number of ticks (`instants_cut_towards_1970`).
-/

set_option autoImplicit false

namespace ArchiveUpdate

/-- The whole seconds of an instant, rounded down, and the nanoseconds beyond them. -/
def Instant.unix (t : Instant) : UnixTime :=
  ⟨t.nanos / Timestamp.nanosPerSecond, (t.nanos % Timestamp.nanosPerSecond).toNat⟩

namespace Timestamp

/-- The point with a number of ticks, counted backwards before 1601, if 64 bits hold it. -/
def ofTick? (k : Int) : Option Timestamp :=
  if h : 0 ≤ k ∧ k < 18446744073709551616 then some ⟨k.toNat, by omega⟩ else none

/-- A natural number of ticks makes the same point as a whole number does. -/
theorem ofTicks?_eq (n : Nat) : ofTicks? n = ofTick? n := by
  unfold ofTicks? ofTick?
  by_cases hn : n < 18446744073709551616
  · rw [dif_pos hn, dif_pos ⟨by omega, by omega⟩]
    rfl
  · rw [dif_neg hn, dif_neg (by omega)]

/-- There is no point before 1601, and none beyond 64 bits. -/
theorem ofTick?_eq_none_iff {k : Int} : ofTick? k = none ↔ k < 0 ∨ 18446744073709551616 ≤ k := by
  unfold ofTick?
  split
  · rename_i hk
    exact iff_of_false nofun (by omega)
  · rename_i hk
    exact iff_of_true rfl (by omega)

/-- A point has the number of ticks that it is made of. -/
theorem ofTick?_eq_some_iff {k : Int} {t : Timestamp} : ofTick? k = some t ↔ k = t.ticks := by
  have hlt := t.isLt
  unfold ofTick?
  split
  · rename_i hk
    rw [Option.some.injEq]
    constructor
    · rintro rfl
      exact (Int.toNat_of_nonneg hk.1).symm
    · rintro rfl
      rfl
  · rename_i hk
    exact iff_of_false nofun (by omega)

/-- Different ticks are different points, unless 64 bits hold neither. -/
theorem ofTick?_eq_ofTick?_iff {k l : Int} :
    ofTick? k = ofTick? l ↔ k = l ∨ ofTick? k = none ∧ ofTick? l = none := by
  constructor
  · intro h
    cases hl : ofTick? l with
    | none => exact .inr ⟨h.trans hl, rfl⟩
    | some t =>
      have hk := ofTick?_eq_some_iff.1 (h.trans hl)
      exact .inl (hk.trans (ofTick?_eq_some_iff.1 hl).symm)
  · rintro (rfl | ⟨hk, hl⟩)
    · rfl
    · rw [hk, hl]

/-- Seconds and nanoseconds are given the tick in which they fall.  The start of 1601 is a whole
number of seconds before 1970, so no part of a second reaches it from an earlier second. -/
theorem ofUnix?_eq {t : UnixTime} (ht : t.nanos < nanosPerSecond) :
    ofUnix? t =
      ofTick? (unixEpoch + t.seconds * perSecond + (t.nanos / nanosPerTick : Nat)) := by
  simp only [nanosPerSecond] at ht
  simp only [ofUnix?, perSecond, unixEpoch, nanosPerTick, ofTicks?_eq]
  split
  · congr 1
    omega
  · split
    · congr 1
      omega
    · symm
      rw [ofTick?_eq_none_iff]
      omega

/-- An instant is given the tick of its distance to 1970 without what is no whole tick. -/
theorem ofInstant?_eq (t : Instant) :
    ofInstant? t = ofTick? (unixEpoch + t.nanos.tdiv nanosPerTick) := by
  by_cases hpast : 0 ≤ t.nanos
  · rw [Int.tdiv_eq_ediv_of_nonneg hpast]
    simp only [ofInstant?, if_pos hpast]
    split
    · rw [ofUnix?_eq (Nat.mod_lt _ (by decide))]
      congr 1
      simp only [nanosPerSecond, perSecond, nanosPerTick]
      omega
    · rename_i hlate
      symm
      rw [ofTick?_eq_none_iff]
      simp only [nanosPerSecond, maxSeconds, unixEpoch, nanosPerTick] at hlate ⊢
      omega
  · have hcut : t.nanos.tdiv nanosPerTick = -(t.nanos.natAbs / nanosPerTick : Nat) := by
      rw [show t.nanos = -(t.nanos.natAbs : Int) by omega, Int.neg_tdiv, Int.natAbs_neg,
        Int.natAbs_natCast]
      rfl
    rw [hcut]
    simp only [ofInstant?, if_neg hpast, ofTicks?_eq]
    split
    · congr 1
      omega
    · symm
      rw [ofTick?_eq_none_iff]
      omega

/-- The seconds and nanoseconds of an instant fall into the tick that begins last before it. -/
theorem ofUnix?_unix (t : Instant) :
    ofUnix? t.unix = ofTick? (unixEpoch + t.nanos / nanosPerTick) := by
  rw [ofUnix?_eq]
  · congr 1
    simp only [Instant.unix, nanosPerSecond, perSecond, nanosPerTick]
    omega
  · simp only [Instant.unix, nanosPerSecond]
    omega

/-- A whole number of ticks, or any distance from 1970 on, is cut to the tick in which it falls, and
every other distance to the tick after that. -/
theorem tdiv_perTick (n : Int) : n.tdiv nanosPerTick =
    if 0 ≤ n ∨ (nanosPerTick : Int) ∣ n then n / nanosPerTick else n / nanosPerTick + 1 := by
  rw [Int.tdiv_eq_ediv]
  split
  · rw [Int.add_zero]
  · rfl

/-- Seconds and nanoseconds are given the tick in which they fall, and so is an instant from 1970 on
or of a whole number of ticks.  Every other instant is given the tick after that, so that the two
differ unless the later tick, too, lies before 1601. -/
theorem instants_cut_towards_1970 (t : Instant) :
    let tick : Int := unixEpoch + t.nanos / nanosPerTick
    let settled := 0 ≤ t.nanos ∨ (nanosPerTick : Int) ∣ t.nanos
    ofUnix? t.unix = ofTick? tick ∧
      (settled → ofInstant? t = ofTick? tick) ∧
      (¬settled → ofInstant? t = ofTick? (tick + 1)) ∧
      (ofInstant? t = ofUnix? t.unix ↔
        settled ∨ t.nanos ≤ -((unixEpoch + 1) * nanosPerTick : Nat)) := by
  intro tick settled
  have hunix : ofUnix? t.unix = ofTick? tick := ofUnix?_unix t
  have hinstant := ofInstant?_eq t
  rw [tdiv_perTick] at hinstant
  by_cases hsettled : settled
  · rw [if_pos hsettled] at hinstant
    refine ⟨hunix, fun _ => hinstant, fun h => absurd hsettled h, ?_⟩
    exact iff_of_true (hinstant.trans hunix.symm) (.inl hsettled)
  · rw [if_neg hsettled, ← Int.add_assoc] at hinstant
    refine ⟨hunix, fun h => absurd h hsettled, fun _ => hinstant, ?_⟩
    rw [hinstant, hunix, ofTick?_eq_ofTick?_iff, ofTick?_eq_none_iff, ofTick?_eq_none_iff,
      or_iff_right hsettled]
    have hpast : ¬0 ≤ t.nanos := fun h => hsettled (.inl h)
    have hpart : ¬(100 : Int) ∣ t.nanos := fun h => hsettled (.inr h)
    simp only [tick, unixEpoch, nanosPerTick]
    omega

/-- One nanosecond before 1970 falls in the last tick of 1969; a clock's instant gets the first one
of 1970 instead. -/
theorem instant_before_1970_gets_later_tick :
    ofUnix? (Instant.unix ⟨-1⟩) = some ⟨116444735999999999, by decide⟩ ∧
      ofInstant? ⟨-1⟩ = some ⟨116444736000000000, by decide⟩ := by
  decide

end Timestamp

end ArchiveUpdate
