import ArchiveUpdate.Proofs.PathGrammar

/-!
# Joining paths and going up

Joining puts two texts together with a slash and reads the result anew; going up cuts a text before
its last slash.  Neither disturbs the names: those of a joined path are the names of both
(`exists_segments_of_join`), and only the length can stand in the way (`exists_join_iff`), which is
why three paths are joined in either grouping to the same result (`join_join`, `join_join_right`).
A path is its parent joined with its last name (`join_of_parent?`), and joining with one name is
undone by going up (`parent?_of_join`).  A path of `n` names has `n - 1` ancestors
(`isSome_ancestor?_iff`).
-/

set_option autoImplicit false

namespace ArchiveUpdate.ItemPath

variable {p q : ItemPath} {below : String}

/-- A joined path has the two texts with a slash between them as its text. -/
theorem join_eq_ok_iff : p.join below = .ok q ↔ q.text = p.text ++ "/" ++ below := parse_eq_ok_iff

/-- What is joined with a path is a path, and its names follow those of the first. -/
theorem exists_segments_of_join (h : p.join below = .ok q) :
    ∃ o, parse below = .ok o ∧ q.segments = p.segments ++ o.segments := by
  have htext := join_eq_ok_iff.1 h
  have hsegments : q.segments = p.segments ++ Segments.split '/' below.toList := by
    rw [segments, htext, split_slash]
    rfl
  have hsize := q.size_le
  rw [htext, size_joined] at hsize
  refine ⟨⟨below, by omega, ?_⟩, parse_eq_ok_iff.2 rfl, hsegments⟩
  intro segment hsegment
  apply q.segments_ok
  show segment ∈ q.segments
  rw [hsegments]
  exact List.mem_append_right _ hsegment

/-- Two paths can be joined if the second one is a path and the result is not too long. -/
theorem exists_join_iff : (∃ q, p.join below = .ok q) ↔
    (∃ o, parse below = .ok o) ∧ p.text.utf8ByteSize + 1 + below.utf8ByteSize ≤ 32768 := by
  constructor
  · rintro ⟨q, hq⟩
    obtain ⟨o, ho, -⟩ := exists_segments_of_join hq
    have hsize := q.size_le
    rw [join_eq_ok_iff.1 hq, size_joined] at hsize
    exact ⟨⟨o, ho⟩, hsize⟩
  · rintro ⟨⟨o, ho⟩, hsize⟩
    obtain rfl := parse_eq_ok_iff.1 ho
    exact exists_join (by omega)

/-- The length is the only thing wrong with a text of admissible names that is no path. -/
theorem parse_of_long {text : String}
    (h : ∀ segment ∈ Segments.split '/' text.toList, IsSegment segment)
    (hlong : 32768 < text.utf8ByteSize) :
    parse text = .error (.invalidItemPath (PathFault.tooLong.message text)) := by
  apply parse_of_fault
  have hnul : '\x00' ∉ text.toList := by
    rw [← Segments.join_split '/' text.toList]
    intro hmem
    rcases Segments.mem_join hmem with heq | ⟨segment, hsegment, hnul⟩
    · exact absurd heq (by decide)
    · exact (h segment hsegment).nul hnul
  have hempty : text.toList ≠ [] := by
    intro hnil
    rw [hnil] at h
    exact (h [] (by simp [Segments.split])).ne_nil rfl
  unfold PathFault.of?
  rw [if_neg hnul, if_neg hempty, if_pos hlong]

/-- Joining two paths fails only if they are too long together. -/
theorem join_eq_error {o : ItemPath} {e : UpdateError} (h : p.join o.text = .error e) :
    32768 < p.text.utf8ByteSize + 1 + o.text.utf8ByteSize ∧
      e = .invalidItemPath (PathFault.tooLong.message o.text) := by
  by_cases hsize : p.text.utf8ByteSize + 1 + o.text.utf8ByteSize ≤ 32768
  · obtain ⟨q, hq⟩ := exists_join_iff.2 ⟨⟨o, parse_text o⟩, hsize⟩
    rw [hq] at h
    cases h
  · have hlong : 32768 < (p.text ++ "/" ++ o.text).utf8ByteSize := by
      rw [size_joined]
      omega
    have herror := parse_of_long (segments_ok_joined p.segments_ok o.segments_ok) hlong
    rw [join, herror] at h
    cases h
    exact ⟨by omega, rfl⟩

/-- Three paths joined from the first on are read from their texts with slashes between them. -/
theorem join_join (p q r : ItemPath) : (p.join q.text >>= fun pq => pq.join r.text) =
    parse (p.text ++ "/" ++ q.text ++ "/" ++ r.text) := by
  cases h : p.join q.text with
  | ok pq =>
    show parse (pq.text ++ "/" ++ r.text) = _
    rw [join_eq_ok_iff.1 h]
  | error e =>
    obtain ⟨hlong, rfl⟩ := join_eq_error h
    symm
    apply parse_of_long
    · exact segments_ok_joined (segments_ok_joined p.segments_ok q.segments_ok) r.segments_ok
    · rw [size_joined, size_joined]
      omega

/-- So are three paths joined from the last on. -/
theorem join_join_right (p q r : ItemPath) : (q.join r.text >>= fun qr => p.join qr.text) =
    parse (p.text ++ "/" ++ q.text ++ "/" ++ r.text) := by
  have htexts : p.text ++ "/" ++ q.text ++ "/" ++ r.text =
      p.text ++ "/" ++ (q.text ++ "/" ++ r.text) := by
    simp only [String.append_assoc]
  rw [htexts]
  cases h : q.join r.text with
  | ok qr =>
    show parse (p.text ++ "/" ++ qr.text) = _
    rw [join_eq_ok_iff.1 h]
  | error e =>
    obtain ⟨hlong, rfl⟩ := join_eq_error h
    symm
    apply parse_of_long
    · exact segments_ok_joined p.segments_ok (segments_ok_joined q.segments_ok r.segments_ok)
    · rw [size_joined, size_joined]
      omega

/-- A path of one segment, and no other, has no parent. -/
theorem parent?_eq_none_iff : p.parent? = none ↔ p.segments.length = 1 := by
  have hcut : p.parent? = none ↔ p.segments.dropLast.length = 0 := by
    rw [List.length_eq_zero_iff]
    unfold parent?
    split
    · exact iff_of_true rfl ‹_›
    · exact iff_of_false (Option.some_ne_none _) ‹_›
  have hpos := List.length_pos_of_ne_nil p.segments_ne_nil
  rw [hcut, List.length_dropLast]
  omega

/-- A path is its parent joined with its name. -/
theorem join_of_parent? (h : p.parent? = some q) : q.join p.name = .ok p :=
  join_eq_ok_iff.2 (text_of_parent? h)

/-- Joining with a single segment is undone by taking the parent and the name. -/
theorem parent?_of_join (hname : '/' ∉ below.toList) (h : p.join below = .ok q) :
    q.parent? = some p ∧ q.name = below := by
  have hcut := segments_of_cut (join_eq_ok_iff.1 h) hname
  constructor
  · rw [parent?_eq_some_iff, hcut, List.dropLast_concat]
    rfl
  · have hlast : q.segments.getLast? = some below.toList := by
      rw [hcut, List.getLast?_concat]
    rw [name_eq_of_getLast? hlast, String.ofList_toList]

/-- The path to which so many steps up lead. -/
def ancestor? (p : ItemPath) : Nat → Option ItemPath
  | 0 => some p
  | n + 1 => (p.ancestor? n).bind parent?

/-- Each step up takes one name away. -/
theorem length_ancestor? {n : Nat} (h : p.ancestor? n = some q) :
    q.segments.length + n = p.segments.length := by
  induction n generalizing q with
  | zero =>
    cases h
    rfl
  | succ n ih =>
    obtain ⟨r, hr, hq⟩ := Option.bind_eq_some_iff.1 h
    have hlength := ih hr
    have hpos := List.length_pos_of_ne_nil q.segments_ne_nil
    have hcut : q.segments.length = r.segments.length - 1 := by
      rw [parent?_eq_some_iff.1 hq, List.length_dropLast]
    omega

/-- One can go up as often as there are segments above the last. -/
theorem isSome_ancestor?_iff {n : Nat} :
    (p.ancestor? n).isSome = true ↔ n < p.segments.length := by
  constructor
  · intro h
    obtain ⟨q, hq⟩ := Option.isSome_iff_exists.1 h
    have hlength := length_ancestor? hq
    have hpos := List.length_pos_of_ne_nil q.segments_ne_nil
    omega
  · induction n with
    | zero =>
      intro _
      rfl
    | succ n ih =>
      intro h
      obtain ⟨r, hr⟩ := Option.isSome_iff_exists.1 (ih (Nat.lt_of_succ_lt h))
      have hlength := length_ancestor? hr
      rw [ancestor?, hr, Option.bind_some, Option.isSome_iff_ne_none, Ne, parent?_eq_none_iff]
      omega

/-- A path is joined with exactly the texts that are paths and not too long for it, and the names of
both stand in the result; three paths are joined to the same result, or refused alike, in either
grouping.  Only a path of one name has no parent.  Any other is its parent joined with its last
name, so there are as many steps up as it has names but one.  Joining with one name is undone by
going up. -/
theorem joining_and_going_up (p : ItemPath) :
    (∀ below, (∃ q, p.join below = .ok q) ↔
      (∃ o, parse below = .ok o) ∧ p.text.utf8ByteSize + 1 + below.utf8ByteSize ≤ 32768) ∧
    (∀ below q, p.join below = .ok q →
      ∃ o, parse below = .ok o ∧ q.segments = p.segments ++ o.segments) ∧
    (∀ q r : ItemPath, (p.join q.text >>= fun pq => pq.join r.text) =
      (q.join r.text >>= fun qr => p.join qr.text)) ∧
    (p.parent? = none ↔ p.segments.length = 1) ∧
    (∀ q, p.parent? = some q →
      q.segments ++ [p.name.toList] = p.segments ∧ q.join p.name = .ok p) ∧
    (∀ n, (p.ancestor? n).isSome = true ↔ n < p.segments.length) ∧
    ∀ below q, '/' ∉ below.toList → p.join below = .ok q → q.parent? = some p ∧ q.name = below := by
  refine ⟨fun below => exists_join_iff, fun below q => exists_segments_of_join, ?_,
    parent?_eq_none_iff, ?_, fun n => isSome_ancestor?_iff, fun below q => parent?_of_join⟩
  · intro q r
    rw [join_join, join_join_right]
  · intro q hq
    rw [parent?_eq_some_iff.1 hq]
    exact ⟨p.dropLast_concat_name, join_of_parent? hq⟩

/-- The path `docs/sub` joined with `é` has `docs/sub` for its parent and two ancestors. -/
theorem joining_and_going_up_docs :
    ∃ p q, parse "docs/sub" = .ok p ∧ '/' ∉ "é".toList ∧ p.join "é" = .ok q ∧
      q.parent? = some p ∧ q.name = "é" ∧ q.segments.length = 3 ∧
      (q.ancestor? 2).isSome = true ∧ q.ancestor? 3 = none := by
  obtain ⟨p, hp⟩ : ∃ p, parse "docs/sub" = .ok p :=
    ⟨⟨"docs/sub", by decide, (PathFault.of?_eq_none_iff.1 rfl).2⟩, rfl⟩
  obtain ⟨o, ho⟩ : ∃ o, parse "é" = .ok o :=
    ⟨⟨"é", by decide, (PathFault.of?_eq_none_iff.1 rfl).2⟩, rfl⟩
  have hname : '/' ∉ "é".toList := by decide
  have hsize : p.text.utf8ByteSize + 1 + "é".utf8ByteSize ≤ 32768 := by
    rw [parse_eq_ok_iff.1 hp]
    decide
  obtain ⟨hjoin, hsegments, -, -, -, -, hback⟩ := joining_and_going_up p
  obtain ⟨q, hq⟩ := (hjoin "é").2 ⟨⟨o, ho⟩, hsize⟩
  obtain ⟨hparent, hlast⟩ := hback "é" q hname hq
  have hlength : q.segments.length = 3 := by
    obtain ⟨o', ho', hq'⟩ := hsegments "é" q hq
    rw [hq', segments, segments, parse_eq_ok_iff.1 hp, parse_eq_ok_iff.1 ho']
    rfl
  obtain ⟨-, -, -, -, -, hancestors, -⟩ := joining_and_going_up q
  refine ⟨p, q, hp, hname, hq, hparent, hlast, hlength, ?_, ?_⟩
  · rw [hancestors, hlength]
    decide
  · have hnone := (hancestors 3).not
    rw [hlength, Option.isSome_iff_ne_none, not_not] at hnone
    exact hnone.2 (by decide)

end ArchiveUpdate.ItemPath
