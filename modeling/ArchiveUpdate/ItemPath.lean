import ArchiveUpdate.Error
import ArchiveUpdate.Text.Segments
import ArchiveUpdate.Text.Utf8

/-!
# Paths inside an archive

An `ItemPath` is a relative path of one or more names with a slash between neighbours.  Its type
carries the rules: it is not too long, and every name between slashes is an admissible segment
(`IsSegment`).  `ItemPath.parse` tests a text in a fixed order and reports the first fault it finds;
it accepts exactly the texts that keep the rules (`fault?_eq_none_iff`).
-/

set_option autoImplicit false

namespace ArchiveUpdate

/-- A name that may stand between the slashes of a path: not empty, neither of the two names that
mean a directory itself or the one above it, and free of slashes and NUL characters. -/
structure IsSegment (segment : List Char) : Prop where
  ne_nil : segment ≠ []
  ne_dot : segment ≠ ['.']
  ne_dots : segment ≠ ['.', '.']
  slash : '/' ∉ segment
  nul : '\x00' ∉ segment

/-- A path inside an archive. -/
structure ItemPath where
  text : String
  size_le : text.utf8ByteSize ≤ 32768
  segments_ok : ∀ segment ∈ Segments.split '/' text.toList, IsSegment segment
  deriving DecidableEq

/-- Why a text is no path inside an archive. -/
inductive PathFault where
  | nul
  | empty
  | tooLong
  | absolute
  | emptySegment
  | dotSegment (segment : String)
  deriving DecidableEq, Repr

namespace PathFault

/-- What is said about a fault of a text. -/
def message (text : String) : PathFault → String
  | nul => "contains NUL byte"
  | empty => "empty path"
  | tooLong => "path exceeds maximum length of 32768 bytes"
  | absolute => s!"absolute path not allowed: {text}"
  | emptySegment => s!"empty segment in '{text}'"
  | dotSegment segment => s!"'{segment}' segment not allowed in '{text}'"

/-- What is wrong with a name between slashes. -/
def ofSegment? : List Char → Option PathFault
  | [] => some emptySegment
  | ['.'] => some (dotSegment ".")
  | ['.', '.'] => some (dotSegment "..")
  | _ => none

/-- The first thing wrong with a text as a path. -/
def of? (text : String) : Option PathFault :=
  if '\x00' ∈ text.toList then some nul
  else if text.toList = [] then some empty
  else if 32768 < text.utf8ByteSize then some tooLong
  else if text.toList.head? = some '/' then some absolute
  else (Segments.split '/' text.toList).findSome? ofSegment?

/-- Nothing is wrong with a segment that is neither empty nor one or two dots. -/
theorem ofSegment?_eq_none_iff {segment : List Char} :
    ofSegment? segment = none ↔ segment ≠ [] ∧ segment ≠ ['.'] ∧ segment ≠ ['.', '.'] := by
  unfold ofSegment?
  split <;> simp_all

/-- The texts without a fault are those that keep the rules for paths. -/
theorem of?_eq_none_iff {text : String} :
    of? text = none ↔ text.utf8ByteSize ≤ 32768 ∧
      ∀ segment ∈ Segments.split '/' text.toList, IsSegment segment := by
  generalize hcs : text.toList = cs
  have nulFree : '\x00' ∉ cs ↔ ∀ segment ∈ Segments.split '/' cs, '\x00' ∉ segment := by
    constructor
    · intro h segment hs hn
      have := Segments.join_split '/' cs
      exact h (this ▸ Segments.mem_join_of_mem hs hn)
    · intro h hn
      rw [← Segments.join_split '/' cs] at hn
      rcases Segments.mem_join hn with e | ⟨segment, hs, hx⟩
      · exact absurd e (by decide)
      · exact h segment hs hx
  have headFree : (∀ segment ∈ Segments.split '/' cs, segment ≠ []) →
      cs ≠ [] ∧ cs.head? ≠ some '/' := by
    intro h
    cases cs with
    | nil => exact absurd rfl (h [] (by simp [Segments.split]))
    | cons c cs =>
      refine ⟨by simp, fun e => ?_⟩
      simp only [List.head?_cons, Option.some.injEq] at e
      exact absurd rfl (h [] (by simp [Segments.split, e]))
  unfold of?
  rw [hcs]
  constructor
  · intro h
    split at h
    · exact absurd h (by simp)
    · rename_i hnul
      split at h
      · exact absurd h (by simp)
      · split at h
        · exact absurd h (by simp)
        · rename_i hlen
          split at h
          · exact absurd h (by simp)
          · rw [List.findSome?_eq_none_iff] at h
            refine ⟨by omega, fun segment hs => ?_⟩
            obtain ⟨h1, h2, h3⟩ := ofSegment?_eq_none_iff.1 (h segment hs)
            exact ⟨h1, h2, h3, Segments.not_mem_of_mem_split hs, nulFree.1 hnul segment hs⟩
  · rintro ⟨hlen, hseg⟩
    obtain ⟨hne, hhead⟩ := headFree fun segment hs => (hseg segment hs).ne_nil
    rw [if_neg (nulFree.2 fun segment hs => (hseg segment hs).nul), if_neg hne,
      if_neg (by omega), if_neg hhead, List.findSome?_eq_none_iff]
    intro segment hs
    exact ofSegment?_eq_none_iff.2
      ⟨(hseg segment hs).ne_nil, (hseg segment hs).ne_dot, (hseg segment hs).ne_dots⟩

end PathFault

namespace ItemPath

/-- Reads a text as a path inside an archive. -/
def parse (text : String) : Except UpdateError ItemPath :=
  match h : PathFault.of? text with
  | some fault => .error (.invalidItemPath (fault.message text))
  | none => .ok ⟨text, (PathFault.of?_eq_none_iff.1 h).1, (PathFault.of?_eq_none_iff.1 h).2⟩

/-- Refuses a text that has a fault. -/
def validate (text : String) : Except UpdateError Unit :=
  match PathFault.of? text with
  | some fault => .error (.invalidItemPath (fault.message text))
  | none => .ok ()

/-- A text that was found valid has no fault. -/
theorem of?_eq_none_of_validate {text : String} (h : validate text = .ok ()) :
    PathFault.of? text = none := by
  unfold validate at h
  split at h
  · cases h
  · assumption

/-- Converts a text that stays with its owner; the path holds a copy of it. -/
def ofLentText (text : String) : Except UpdateError ItemPath := parse text

/-- Converts a text that is given away; validated, it becomes the path's own. -/
def ofOwnedText (text : String) : Except UpdateError ItemPath :=
  match h : validate text with
  | .error e => .error e
  | .ok () =>
    have rules := PathFault.of?_eq_none_iff.1 (of?_eq_none_of_validate h)
    .ok ⟨text, rules.1, rules.2⟩

/-- The names between the slashes, from the outermost on. -/
def segments (p : ItemPath) : List (List Char) := Segments.split '/' p.text.toList

/-- The last name. -/
def name (p : ItemPath) : String := String.ofList (p.segments.getLastD [])

/-- The path below this one that a text describes. -/
def join (p : ItemPath) (below : String) : Except UpdateError ItemPath :=
  parse (p.text ++ "/" ++ below)

/-- A path has a segment. -/
theorem segments_ne_nil (p : ItemPath) : p.segments ≠ [] := Segments.split_ne_nil _ _

/-- The segments with slashes between them are the text of the path. -/
theorem join_segments (p : ItemPath) : Segments.join '/' p.segments = p.text.toList :=
  Segments.join_split _ _

/-- A path without its last segment is not too long either. -/
theorem size_join_dropLast_le (p : ItemPath) :
    (String.ofList (Segments.join '/' p.segments.dropLast)).utf8ByteSize ≤ 32768 := by
  have hp := p.size_le
  have htext : p.text = String.ofList (Segments.join '/' p.segments) := by
    rw [join_segments, String.ofList_toList]
  rw [htext, Utf8.utf8ByteSize_ofList] at hp
  rw [Utf8.utf8ByteSize_ofList]
  by_cases h : p.segments.dropLast = []
  · simp [h, Segments.join, Utf8.size]
  · rw [← List.dropLast_concat_getLast p.segments_ne_nil, Segments.join_concat h] at hp
    rw [Utf8.size_append] at hp
    omega

/-- The path without its last name, unless that is its only one. -/
def parent? (p : ItemPath) : Option ItemPath :=
  if h : p.segments.dropLast = [] then none
  else some
    { text := String.ofList (Segments.join '/' p.segments.dropLast)
      size_le := p.size_join_dropLast_le
      segments_ok := by
        rw [String.toList_ofList, Segments.split_join h fun segment hs =>
          (p.segments_ok segment (List.dropLast_subset _ hs)).slash]
        exact fun segment hs => p.segments_ok segment (List.dropLast_subset _ hs) }

/-- Paths are ordered by code points, which is also the order of their bytes. -/
instance : Ord ItemPath := ⟨fun a b => compare a.text b.text⟩

end ItemPath

end ArchiveUpdate
