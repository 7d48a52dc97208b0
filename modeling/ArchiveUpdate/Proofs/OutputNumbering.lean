import ArchiveUpdate.Layout
import Mathlib.Data.List.Perm.Basic
import Mathlib.Data.Set.Function

/-!
# The numbering of the finished archive

The pass that fills the table of kept items is a loop inside a loop: for each output position it
passes the marks that stand in a row at the candidate and then takes the candidate.  Its invariant
(`toList_fillTable`) is that the marks still ahead are increasing, start no lower than the candidate
and leave room for exactly as many rows as are still to fill; what it appends is then every unmarked
position from the candidate on.  So the table and the identity alike hold the `survivors`, and a
survivor's row is its own number less the number of marks below it.

`numbers_survivors_then_added` puts this together: a numbering is refused exactly for too many items
and otherwise pairs the output positions with what the finished archive needs.  The refusal is not
reached where the number of items does not fit into a word of 64 bits (`no_refusal_beyond_words`).
-/

set_option autoImplicit false

namespace ArchiveUpdate

namespace KeptRegion

/-- The kept stored items in the order of their output positions. -/
def toList : KeptRegion → List StoredIndex
  | identity count => (List.range count).map StoredIndex.mk
  | table stored => stored.toList

/-- The rows of a kept region are as many as its size. -/
theorem length_toList (region : KeptRegion) : region.toList.length = region.size := by
  cases region <;> simp [toList, size]

/-- Each row holds the item that is found at its position. -/
theorem getElem?_toList {region : KeptRegion} {i : Nat} (h : i < region.size) :
    region.toList[i]? = some (region.get i h) := by
  cases region with
  | identity count =>
    have : i < count := h
    simp [toList, get, this]
  | table stored =>
    have hi : i < stored.size := h
    rw [toList, Array.getElem?_toList, Array.getElem?_eq_getElem hi]
    rfl

end KeptRegion

namespace Deletions

/-- The unmarked stored items, in their stored order. -/
def survivors (d : Deletions) : List StoredIndex :=
  ((List.range d.count).filter (· ∉ d.members)).map StoredIndex.mk

/-- The number of marks below a stored position. -/
def marksBelow (d : Deletions) (j : Nat) : Nat := d.members.countP (· < j)

/-- Taking distinct numbers out of a range leaves so many less. -/
theorem length_filter_notMem {s n : Nat} {ms : List Nat} (hs : ms.Nodup)
    (hb : ∀ m ∈ ms, s ≤ m ∧ m < s + n) :
    ((List.range' s n).filter (· ∉ ms)).length + ms.length = n := by
  have hperm : ((List.range' s n).filter (· ∈ ms)).Perm ms := by
    refine (List.perm_ext_iff_of_nodup ((List.nodup_range').filter _) hs).2 fun m => ?_
    simp only [List.mem_filter, List.mem_range'_1, decide_eq_true_eq]
    exact ⟨fun h => h.2, fun h => ⟨hb m h, h⟩⟩
  have hsplit := List.length_eq_length_filter_add (l := List.range' s n) (· ∈ ms)
  simp only [List.length_range', hperm.length_eq] at hsplit
  simp only [decide_not]
  omega

/-- Passing marks stops at the first candidate that is not marked, and the offset grows by the marks
passed. -/
theorem passMarks_eq {i offset : Nat} {ms : List Nat} (hs : ms.Pairwise (· < ·))
    (hb : ∀ m ∈ ms, i + offset ≤ m) :
    ∃ k rest, passMarks i offset ms = (offset + k, rest) ∧
      ms = List.range' (i + offset) k ++ rest ∧ ∀ m ∈ rest, i + offset + k < m := by
  induction ms generalizing offset with
  | nil => exact ⟨0, [], rfl, rfl, by simp⟩
  | cons m ms ih =>
    obtain ⟨hm, hs⟩ := List.pairwise_cons.1 hs
    have hle := hb m List.mem_cons_self
    by_cases hmi : m = i + offset
    · have hnext : ∀ m' ∈ ms, i + (offset + 1) ≤ m' := fun m' hm' => by
        have := hm m' hm'
        omega
      obtain ⟨k, rest, hpass, hsplit, hrest⟩ := ih hs hnext
      refine ⟨k + 1, rest, ?_, ?_, ?_⟩
      · rw [passMarks, if_pos hmi, hpass, Nat.add_right_comm, Nat.add_assoc]
      · rw [hsplit, hmi, List.range'_succ, List.cons_append, Nat.add_assoc]
      · intro m' hm'
        have := hrest m' hm'
        omega
    · refine ⟨0, m :: ms, ?_, rfl, ?_⟩
      · rw [passMarks, if_neg hmi, Nat.add_zero]
      · intro m' hm'
        rcases List.mem_cons.1 hm' with rfl | hm'
        · omega
        · have := hm m' hm'
          omega

/-- Filling the table lists the candidates that are not marked, in order. -/
theorem toList_fillTable {n i offset : Nat} {ms : List Nat} (hs : ms.Pairwise (· < ·))
    (hb : ∀ m ∈ ms, i + offset ≤ m ∧ m < i + offset + (n + ms.length))
    (table : Array StoredIndex) :
    (fillTable n i offset ms table).toList = table.toList ++
      ((List.range' (i + offset) (n + ms.length)).filter (· ∉ ms)).map StoredIndex.mk := by
  induction n generalizing i offset ms table with
  | zero =>
    have hlen := length_filter_notMem (hs.imp Nat.ne_of_lt) hb
    have hnil : (List.range' (i + offset) (0 + ms.length)).filter (· ∉ ms) = [] :=
      List.eq_nil_of_length_eq_zero (by omega)
    rw [hnil, List.map_nil, List.append_nil, fillTable]
  | succ n ih =>
    obtain ⟨k, rest, hpass, hsplit, hrest⟩ := passMarks_eq hs fun m hm => (hb m hm).1
    have hlen : ms.length = k + rest.length := by
      rw [hsplit, List.length_append, List.length_range']
    have hrow : fillTable (n + 1) i offset ms table =
        fillTable n (i + 1) (offset + k) rest (table.push ⟨i + (offset + k)⟩) := by
      rw [fillTable, hpass]
    -- the candidates: `k` marked ones, the one that is kept, and those of the later rows
    have hrange : List.range' (i + offset) (n + 1 + ms.length) =
        List.range' (i + offset) k ++ (i + (offset + k)) ::
          List.range' (i + 1 + (offset + k)) (n + rest.length) := by
      rw [show n + 1 + ms.length = k + (n + rest.length + 1) by omega, ← List.range'_append_1,
        List.range'_succ, show i + offset + k = i + (offset + k) by omega,
        show i + (offset + k) + 1 = i + 1 + (offset + k) by omega]
    have hfirst : (List.range' (i + offset) k).filter (· ∉ ms) = [] := by
      refine List.filter_eq_nil_iff.2 fun m hm => ?_
      simp [hsplit, hm]
    have hkept : i + (offset + k) ∉ ms := by
      rw [hsplit, List.mem_append, List.mem_range'_1]
      rintro (h | h)
      · omega
      · have := hrest _ h
        omega
    have hlater : (List.range' (i + 1 + (offset + k)) (n + rest.length)).filter (· ∉ ms) =
        (List.range' (i + 1 + (offset + k)) (n + rest.length)).filter (· ∉ rest) := by
      refine List.filter_congr fun m hm => ?_
      rw [List.mem_range'_1] at hm
      have : m ∉ List.range' (i + offset) k := by
        rw [List.mem_range'_1]
        omega
      simp [hsplit, this]
    have hs' : rest.Pairwise (· < ·) := (List.pairwise_append.1 (hsplit ▸ hs)).2.1
    rw [hrow, ih hs', hrange, List.filter_append, hfirst, List.nil_append,
      List.filter_cons_of_pos (by simpa using hkept), hlater]
    · simp
    · intro m hm
      have h1 := hrest m hm
      have h2 := hb m (hsplit ▸ List.mem_append_right _ hm)
      omega

/-- Each stored item is kept or marked. -/
theorem kept_add_size (d : Deletions) : d.kept + d.size = d.count := by
  have hlen := length_filter_notMem (s := 0) (n := d.count) (d.sorted.imp Nat.ne_of_lt)
    fun m hm => ⟨Nat.zero_le m, by have := d.below m hm; omega⟩
  unfold kept size
  omega

/-- The survivors are the stored items without a mark. -/
theorem mem_survivors {d : Deletions} {j : StoredIndex} :
    j ∈ d.survivors ↔ j.val < d.count ∧ j.val ∉ d.members := by
  simp only [survivors, List.mem_map, List.mem_filter, List.mem_range, decide_eq_true_eq]
  constructor
  · rintro ⟨m, hm, rfl⟩
    exact hm
  · intro hj
    exact ⟨j.val, hj, rfl⟩

/-- As many items survive as are kept. -/
theorem length_survivors (d : Deletions) : d.survivors.length = d.kept := by
  have hlen := length_filter_notMem (s := 0) (n := d.count) (d.sorted.imp Nat.ne_of_lt)
    fun m hm => ⟨Nat.zero_le m, by have := d.below m hm; omega⟩
  rw [survivors, List.length_map, List.range_eq_range']
  unfold kept size
  omega

/-- The survivors stand in their stored order. -/
theorem pairwise_survivors (d : Deletions) :
    d.survivors.Pairwise fun j j' => j.val < j'.val := by
  rw [survivors, List.pairwise_map]
  exact List.pairwise_lt_range.filter _

/-- No item survives twice. -/
theorem nodup_survivors (d : Deletions) : d.survivors.Nodup :=
  d.pairwise_survivors.imp fun h e => by simp [e] at h

/-- Both forms of the kept region hold the survivors in their stored order. -/
theorem toList_keptRegion (d : Deletions) : d.keptRegion.toList = d.survivors := by
  have hsize := d.kept_add_size
  unfold keptRegion
  split
  · rename_i hempty
    have hnil : d.members = [] := by simpa [isEmpty] using hempty
    have hcount : d.kept = d.count := by simpa [size, hnil] using hsize
    simp [KeptRegion.toList, survivors, hnil, hcount]
  · have hbound : ∀ m ∈ d.members, 0 + 0 ≤ m ∧ m < 0 + 0 + (d.kept + d.members.length) := by
      intro m hm
      have := d.below m hm
      simp only [size] at hsize
      omega
    have hrange : List.range' (0 + 0) (d.kept + d.members.length) = List.range d.count := by
      rw [List.range_eq_range', ← hsize, size]
    rw [KeptRegion.toList, toList_fillTable d.sorted hbound, hrange, survivors, List.nil_append]

/-- A survivor stands at its own number less the number of marks below it. -/
theorem getElem?_survivors_rank {d : Deletions} {j : StoredIndex} (hj : j ∈ d.survivors) :
    d.survivors[j.val - d.marksBelow j.val]? = some j := by
  obtain ⟨hlt, hm⟩ := mem_survivors.1 hj
  have hrange : List.range d.count =
      List.range' 0 j.val ++ j.val :: List.range' (j.val + 1) (d.count - j.val - 1) := by
    rw [List.range_eq_range', show d.count = j.val + (d.count - j.val - 1 + 1) by omega,
      ← List.range'_append_1, List.range'_succ]
    simp
  -- only the marks below the survivor count among the positions below it
  have hfilter : (List.range' 0 j.val).filter (· ∉ d.members) =
      (List.range' 0 j.val).filter (· ∉ d.members.filter (· < j.val)) := by
    refine List.filter_congr fun m hm => ?_
    rw [List.mem_range'_1] at hm
    simp [show m < j.val by omega]
  have hlen : ((List.range' 0 j.val).filter (· ∉ d.members)).length =
      j.val - d.marksBelow j.val := by
    have := length_filter_notMem (s := 0) (n := j.val)
      ((d.sorted.imp Nat.ne_of_lt).filter (· < j.val))
      fun m hm => by
        rw [List.mem_filter] at hm
        simp only [decide_eq_true_eq] at hm
        omega
    rw [hfilter, marksBelow, List.countP_eq_length_filter]
    omega
  rw [survivors, hrange, List.filter_append, List.filter_cons_of_pos (by simpa using hm),
    List.map_append, List.getElem?_append_right (by rw [List.length_map, hlen]), List.length_map,
    hlen]
  simp

/-- The placements in the order of their output positions. -/
def placements (d : Deletions) (added : Nat) : List Placement :=
  d.survivors.map .kept ++ (List.range added).map .added

/-- What has to stand somewhere in the finished archive. -/
def Needs (d : Deletions) (added : Nat) : Placement → Prop
  | .kept j => j.val < d.count ∧ j.val ∉ d.members
  | .added k => k < added

/-- A survivor stands at its number less the marks below it, and nowhere else. -/
theorem getElem?_placements_kept {d : Deletions} {added i : Nat} {j : StoredIndex} :
    (d.placements added)[i]? = some (.kept j) ↔
      d.Needs added (.kept j) ∧ i = j.val - d.marksBelow j.val := by
  have hsurvivor : (d.placements added)[i]? = some (.kept j) ↔ d.survivors[i]? = some j := by
    rw [placements, List.getElem?_append, List.length_map]
    split
    · simp
    · rename_i hi
      have hnone : d.survivors[i]? = none := List.getElem?_eq_none (by omega)
      simp [hnone]
  rw [hsurvivor, Needs, ← mem_survivors]
  constructor
  · intro hi
    have hj := List.mem_of_getElem? hi
    exact ⟨hj, (List.getElem?_inj (List.getElem?_eq_some_iff.1 hi).1 d.nodup_survivors).1
      (hi.trans (getElem?_survivors_rank hj).symm)⟩
  · rintro ⟨hj, rfl⟩
    exact getElem?_survivors_rank hj

/-- The new items follow the survivors in their order. -/
theorem getElem?_placements_added {d : Deletions} {added i k : Nat} :
    (d.placements added)[i]? = some (.added k) ↔
      d.Needs added (.added k) ∧ i = d.kept + k := by
  rw [placements, List.getElem?_append, List.length_map, length_survivors, Needs]
  split
  · simp
    omega
  · rename_i hi
    rw [List.getElem?_map]
    by_cases hk : i - d.kept < added
    · simp [hk]
      omega
    · simp [hk]
      omega

/-- Behind the last new item nothing stands. -/
theorem getElem?_placements_eq_none {d : Deletions} {added i : Nat} :
    (d.placements added)[i]? = none ↔ d.kept + added ≤ i := by
  simp [placements, length_survivors]

end Deletions

namespace Layout

/-- The placements of a layout in the order of their output positions. -/
def placements (l : Layout) : List Placement :=
  l.region.toList.map .kept ++ (List.range l.added).map .added

/-- To resolve a position is to look it up among the placements. -/
theorem resolve_eq (l : Layout) (i : OutputIndex) :
    l.resolve i = match l.placements[i.val]? with
      | some p => .ok p
      | none => .error (.indexOutOfRange i.val l.total) := by
  have hlen : (l.region.toList.map Placement.kept).length = l.kept := by
    rw [List.length_map, KeptRegion.length_toList, kept]
  rw [resolve, placements, List.getElem?_append, hlen]
  by_cases hi : i.val < l.kept
  · rw [dif_pos hi, if_pos hi, List.getElem?_map, KeptRegion.getElem?_toList hi, Option.map_some]
  · rw [dif_neg hi, if_neg hi, List.getElem?_map]
    by_cases hadded : i.val - l.kept < l.added
    · simp [hadded]
    · simp [hadded]

/-- A numbering that is made is that of the marks, and its items are not too many. -/
theorem of_eq_ok {d : Deletions} {added : Nat} {l : Layout} (hl : Layout.of d added = .ok l) :
    d.kept + added ≤ maxItems ∧ l.region = d.keptRegion ∧ l.placements = d.placements added ∧
      l.total = d.kept + added := by
  unfold Layout.of at hl
  split at hl
  · rename_i hfits
    cases hl
    exact ⟨hfits, rfl, by rw [placements, d.toList_keptRegion, Deletions.placements],
      by rw [total, kept, d.size_keptRegion]⟩
  · cases hl

/-- A numbering is refused for too many items only. -/
theorem of_eq_error {d : Deletions} {added : Nat} {e : UpdateError}
    (he : Layout.of d added = .error e) :
    maxItems < d.kept + added ∧ e = .tooManyItems (d.kept + added) := by
  unfold Layout.of at he
  split at he
  · cases he
  · rename_i hfits
    cases he
    exact ⟨Nat.not_le.1 hfits, rfl⟩

section

variable {d : Deletions} {added : Nat} {l : Layout}

/-- Stored items keep their numbers exactly if none is marked. -/
theorem isIdentity_of (hl : Layout.of d added = .ok l) : l.isIdentity = d.isEmpty := by
  obtain ⟨-, hregion, -, -⟩ := of_eq_ok hl
  rw [isIdentity, hregion, Deletions.keptRegion]
  cases hempty : d.isEmpty <;> simp

/-- A position resolves to what is placed there. -/
theorem resolve_eq_ok_iff (hl : Layout.of d added = .ok l) {i : OutputIndex} {p : Placement} :
    l.resolve i = .ok p ↔ (d.placements added)[i.val]? = some p := by
  rw [resolve_eq, (of_eq_ok hl).2.2.1]
  cases (d.placements added)[i.val]? <;> simp

/-- A position resolves to an unmarked stored item exactly if it is the item's number less the marks
below it. -/
theorem resolve_eq_kept_iff (hl : Layout.of d added = .ok l) {i : OutputIndex} {j : StoredIndex} :
    l.resolve i = .ok (.kept j) ↔
      d.Needs added (.kept j) ∧ i.val = j.val - d.marksBelow j.val := by
  rw [resolve_eq_ok_iff hl, Deletions.getElem?_placements_kept]

/-- A position resolves to a new item exactly if it is as far behind the kept ones. -/
theorem resolve_eq_added_iff (hl : Layout.of d added = .ok l) {i : OutputIndex} {k : Nat} :
    l.resolve i = .ok (.added k) ↔ d.Needs added (.added k) ∧ i.val = d.kept + k := by
  rw [resolve_eq_ok_iff hl, Deletions.getElem?_placements_added]

/-- The positions that do not resolve are those from the total on. -/
theorem resolve_eq_error_iff (hl : Layout.of d added = .ok l) {i : OutputIndex} {e : UpdateError} :
    l.resolve i = .error e ↔
      d.kept + added ≤ i.val ∧ e = .indexOutOfRange i.val (d.kept + added) := by
  obtain ⟨-, -, hplacements, htotal⟩ := of_eq_ok hl
  rw [resolve_eq, hplacements, htotal, ← Deletions.getElem?_placements_eq_none]
  cases (d.placements added)[i.val]? <;> simp [eq_comm]

/-- Every output position below the total holds one of the needed items, and each of them stands at
exactly one position. -/
theorem resolve_bijOn (hl : Layout.of d added = .ok l) :
    Set.BijOn l.resolve {i | i.val < d.kept + added} (Except.ok '' {p | d.Needs added p}) := by
  refine ⟨?_, ?_, ?_⟩
  · intro i hi
    cases hr : l.resolve i with
    | error e =>
      have hge := ((resolve_eq_error_iff hl).1 hr).1
      exact absurd hi (Nat.not_lt.2 hge)
    | ok p =>
      refine ⟨p, ?_, rfl⟩
      cases p with
      | kept j => exact ((resolve_eq_kept_iff hl).1 hr).1
      | added k => exact ((resolve_eq_added_iff hl).1 hr).1
  · intro i hi i' _ heq
    have hval : i.val = i'.val := by
      cases hr : l.resolve i with
      | error e =>
        have hge := ((resolve_eq_error_iff hl).1 hr).1
        exact absurd hi (Nat.not_lt.2 hge)
      | ok p =>
        have hr' : l.resolve i' = .ok p := heq ▸ hr
        cases p with
        | kept j =>
          rw [((resolve_eq_kept_iff hl).1 hr).2, ((resolve_eq_kept_iff hl).1 hr').2]
        | added k =>
          rw [((resolve_eq_added_iff hl).1 hr).2, ((resolve_eq_added_iff hl).1 hr').2]
    cases i
    cases i'
    simpa using hval
  · rintro _ ⟨p, hp, rfl⟩
    have hrow : ∃ i, l.resolve i = .ok p := by
      cases p with
      | kept j => exact ⟨⟨_⟩, (resolve_eq_kept_iff hl).2 ⟨hp, rfl⟩⟩
      | added k => exact ⟨⟨_⟩, (resolve_eq_added_iff hl).2 ⟨hp, rfl⟩⟩
    obtain ⟨i, hi⟩ := hrow
    refine ⟨i, ?_, hi⟩
    by_contra hge
    have herror := (resolve_eq_error_iff hl).2 ⟨Nat.not_lt.1 hge, rfl⟩
    rw [hi] at herror
    cases herror

/-- Kept items stand in their stored order. -/
theorem resolve_kept_lt (hl : Layout.of d added = .ok l) {i i' : OutputIndex}
    {j j' : StoredIndex} (hlt : i.val < i'.val) (hi : l.resolve i = .ok (.kept j))
    (hi' : l.resolve i' = .ok (.kept j')) : j.val < j'.val := by
  obtain ⟨hj, hrow⟩ := (resolve_eq_kept_iff hl).1 hi
  obtain ⟨hj', hrow'⟩ := (resolve_eq_kept_iff hl).1 hi'
  have hrank := Deletions.getElem?_survivors_rank (Deletions.mem_survivors.2 hj)
  have hrank' := Deletions.getElem?_survivors_rank (Deletions.mem_survivors.2 hj')
  rw [← hrow, List.getElem?_eq_some_iff] at hrank
  rw [← hrow', List.getElem?_eq_some_iff] at hrank'
  obtain ⟨hlen, rfl⟩ := hrank
  obtain ⟨hlen', rfl⟩ := hrank'
  exact List.pairwise_iff_getElem.1 d.pairwise_survivors _ _ hlen hlen' hlt

end

/-- For any marks and any number of new items: there is no answer exactly if the `n` items, which
are the `d.count - d.size` kept ones and the new ones, do not fit into a word of 64 bits, and
otherwise the numbering is refused exactly if they are too many.  If it is not, it pairs the output
positions below `n` one to one with the unmarked stored items and the new items, in either form of
the kept region: an unmarked item stands at its number less the number of marks below it, the new
items follow in their order, and every other position is out of range. -/
theorem numbers_survivors_then_added (d : Deletions) (added : Nat) :
    let n := d.count - d.size + added
    match Layout.of? d added with
    | none => UInt64.size ≤ n
    | some (.error e) => n < UInt64.size ∧ maxItems < n ∧ e = .tooManyItems n
    | some (.ok l) => n ≤ maxItems ∧ l.isIdentity = d.isEmpty ∧
        Set.BijOn l.resolve {i | i.val < n} (Except.ok '' {p | d.Needs added p}) ∧
        (∀ i j, l.resolve i = .ok (.kept j) ↔
          (j.val < d.count ∧ j.val ∉ d.members) ∧ i.val = j.val - d.marksBelow j.val) ∧
        (∀ i i' j j', i.val < i'.val → l.resolve i = .ok (.kept j) →
          l.resolve i' = .ok (.kept j') → j.val < j'.val) ∧
        (∀ i k, l.resolve i = .ok (.added k) ↔ k < added ∧ i.val = d.count - d.size + k) ∧
        (∀ i e, l.resolve i = .error e ↔ n ≤ i.val ∧ e = .indexOutOfRange i.val n) := by
  intro n
  have hkept : d.count - d.size = d.kept := rfl
  simp only [n, hkept]
  by_cases hword : d.kept + added < UInt64.size
  · rw [of?, if_pos hword]
    cases hl : Layout.of d added with
    | error e =>
      obtain ⟨hmany, he⟩ := of_eq_error hl
      exact ⟨hword, hmany, he⟩
    | ok l =>
      have hfits : d.kept + added ≤ maxItems := (of_eq_ok hl).1
      refine ⟨hfits, isIdentity_of hl, resolve_bijOn hl, ?_, ?_, ?_, ?_⟩
      · intro i j
        exact resolve_eq_kept_iff hl
      · intro i i' j j' hlt hi hi'
        exact resolve_kept_lt hl hlt hi hi'
      · intro i k
        exact resolve_eq_added_iff hl
      · intro i e
        exact resolve_eq_error_iff hl
  · rw [of?, if_neg hword]
    exact Nat.not_lt.1 hword

/-- One kept item and the greatest number of new ones that a word of 64 bits holds are too many for
an archive, and yet that is not the answer. -/
theorem no_refusal_beyond_words :
    let d : Deletions := .empty 1
    let n := d.count - d.size + (UInt64.size - 1)
    maxItems < n ∧ Layout.of? d (UInt64.size - 1) ≠ some (.error (.tooManyItems n)) ∧
      Layout.of? d (UInt64.size - 1) = none := by
  intro d n
  have hnone : Layout.of? d (UInt64.size - 1) = none := if_neg (by decide)
  refine ⟨by decide, ?_, hnone⟩
  rw [hnone]
  exact nofun

end Layout

end ArchiveUpdate
