import ArchiveUpdate.Proofs.EntryPaths
import ArchiveUpdate.Proofs.LossyText
import Mathlib.Algebra.Order.BigOperators.Group.List
import Mathlib.Algebra.Order.Group.Nat
import Mathlib.Algebra.Ring.Nat
import Mathlib.Data.Set.List

/-!
# Names on disk make paths inside an archive

The text of a name on disk may stand between the slashes of a path inside an archive, and names that
are not too long altogether make one (`exists_of_readAs`), which tells the names
(`ReadAs.names_unique`).  A path on disk that leads somewhere is never too long for that: the names
in its normal form are some of the pieces between its slashes (`exists_names`).
-/

set_option autoImplicit false

namespace ArchiveUpdate

namespace Segments

variable {α : Type}

/-- Joining pieces is putting the separator between them, as the library does. -/
theorem join_eq_intercalate (sep : α) (pieces : List (List α)) :
    join sep pieces = [sep].intercalate pieces := by
  induction pieces with
  | nil => rfl
  | cons piece rest ih =>
    cases rest with
    | nil => simp [join, List.intercalate]
    | cons next rest =>
      rw [join, ih]
      simp [List.intercalate, List.intersperse]

/-- All pieces together are no longer than the pieces joined. -/
theorem sum_length_le_join (sep : α) (pieces : List (List α)) :
    (pieces.map (·.length)).sum ≤ (join sep pieces).length := by
  induction pieces with
  | nil => exact Nat.le_refl 0
  | cons piece rest ih =>
    cases rest with
    | nil => simp [join]
    | cons next rest =>
      rw [join, List.map_cons, List.sum_cons, List.length_append, List.length_cons]
      omega

end Segments

namespace Utf8

/-- The bytes of a text are as many as its size says. -/
theorem length_encode (cs : List Char) : (encode cs).length = size cs := by
  induction cs with
  | nil => rfl
  | cons c cs ih =>
    rw [encode, List.flatMap_cons, List.length_append, ← encode, ih, size,
      String.length_utf8EncodeChar]

/-- Bytes that are text are as many as the text takes. -/
theorem utf8ByteSize_of_decode? {bs : Bytes} {text : String} (h : decode? bs = some text) :
    text.utf8ByteSize = bs.length := by
  rw [← (of_decode? h).1, length_encode, ← utf8ByteSize_ofList, String.ofList_toList]

/-- The bytes of every character of a text are among those that it was read from. -/
theorem mem_of_decode? {bs : Bytes} {text : String} (h : decode? bs = some text) {c : Char}
    (hc : c ∈ text.toList) {b : UInt8} (hb : b ∈ String.utf8EncodeChar c) : b ∈ bs := by
  rw [← (of_decode? h).1]
  exact List.mem_flatMap.2 ⟨c, hc, hb⟩

end Utf8

/-- The text of a name on disk is a name inside an archive. -/
theorem FileName.isSegment {name : FileName} {text : String}
    (h : Utf8.decode? name.bytes = some text) : IsSegment text.toList := by
  have hbytes := (Utf8.of_decode? h).1
  refine ⟨?_, ?_, ?_, ?_, ?_⟩
  · intro hempty
    rw [hempty] at hbytes
    exact name.ne_nil hbytes.symm
  · intro hdot
    rw [hdot] at hbytes
    exact name.ne_dot hbytes.symm
  · intro hdots
    rw [hdots] at hbytes
    exact name.ne_dots hbytes.symm
  · intro hslash
    exact name.slash (Utf8.mem_of_decode? h hslash (by decide))
  · intro hnul
    exact name.nul (Utf8.mem_of_decode? h hnul (by decide))

/-- Texts without slashes are what lies between the slashes that are put between them. -/
theorem split_intercalate {texts : List String} (hne : texts ≠ [])
    (hslash : ∀ text ∈ texts, '/' ∉ text.toList) :
    Segments.split '/' ("/".intercalate texts).toList = texts.map String.toList := by
  have hpieces : texts.map String.toList ≠ [] := fun hnil => hne (List.map_eq_nil_iff.1 hnil)
  rw [String.toList_intercalate]
  show Segments.split '/' (['/'].intercalate _) = _
  rw [← Segments.join_eq_intercalate]
  apply Segments.split_join hpieces
  intro piece hpiece
  obtain ⟨text, htext, rfl⟩ := List.mem_map.1 hpiece
  exact hslash text htext

section

variable {names names' : List FileName} {texts : List String}

/-- Names can be read if each of them can. -/
theorem exists_readAs_iff : (∃ texts, ReadAs names texts) ↔
    ∀ name ∈ names, ∃ text, Utf8.decode? name.bytes = some text := by
  induction names with
  | nil => exact iff_of_true ⟨[], .nil⟩ (List.forall_mem_nil _)
  | cons name names ih =>
    rw [List.forall_mem_cons, ← ih]
    constructor
    · rintro ⟨texts, hread⟩
      cases hread with
      | cons hname hread => exact ⟨⟨_, hname⟩, _, hread⟩
    · rintro ⟨⟨text, htext⟩, texts, hread⟩
      exact ⟨text :: texts, .cons htext hread⟩

/-- Different names are read as different texts. -/
theorem ReadAs.names_unique (h : ReadAs names texts) (h' : ReadAs names' texts) :
    names = names' := by
  induction h generalizing names' with
  | nil => exact (List.forall₂_nil_right_iff.1 h').symm
  | @cons name text names texts hname _ ih =>
    cases h' with
    | @cons name' _ names' _ hname' hrest =>
      have hbytes : name.bytes = name'.bytes := by
        rw [← (Utf8.of_decode? hname).1, (Utf8.of_decode? hname').1]
      have hsame : name = name' := by
        cases name
        cases name'
        simpa using hbytes
      rw [hsame, ih hrest]

/-- What names are read as are names inside an archive. -/
theorem ReadAs.isSegment (h : ReadAs names texts) : ∀ text ∈ texts, IsSegment text.toList := by
  induction h with
  | nil => exact List.forall_mem_nil _
  | cons hname _ ih => exact List.forall_mem_cons.2 ⟨FileName.isSegment hname, ih⟩

/-- At least one name is read as at least one text. -/
theorem ReadAs.texts_ne_nil (h : ReadAs names texts) (hne : names ≠ []) : texts ≠ [] := by
  rintro rfl
  exact hne (List.forall₂_nil_right_iff.1 h)

/-- Each name takes a byte at least, so the slashes between names take no more than the names. -/
theorem ReadAs.size_intercalate_le (h : ReadAs names texts) :
    ("/".intercalate texts).utf8ByteSize ≤ 2 * (names.map (·.bytes.length)).sum := by
  induction h with
  | nil => decide
  | @cons name text names texts hname hrest ih =>
    have hsize := Utf8.utf8ByteSize_of_decode? hname
    have hpos : 0 < name.bytes.length := List.length_pos_of_ne_nil name.ne_nil
    rw [List.map_cons, List.sum_cons]
    by_cases hlast : texts = []
    · rw [hlast, String.intercalate_singleton]
      omega
    · have hslash : "/".utf8ByteSize = 1 := by decide
      rw [String.intercalate_cons_of_ne_nil hlast, String.utf8ByteSize_append,
        String.utf8ByteSize_append]
      omega

/-- What names are read as is what lies between the slashes that are put between them. -/
theorem ReadAs.split_intercalate (h : ReadAs names texts) (hne : names ≠ []) :
    Segments.split '/' ("/".intercalate texts).toList = texts.map String.toList :=
  ArchiveUpdate.split_intercalate (h.texts_ne_nil hne) fun text htext =>
    (h.isSegment text htext).slash

end

namespace ItemPath

variable {names : List FileName} {texts : List String}

/-- Names on disk make a path inside an archive if they are not too long altogether. -/
theorem exists_of_readAs (h : ReadAs names texts) (hne : names ≠ [])
    (hsum : (names.map (·.bytes.length)).sum ≤ 16384) :
    ∃ p : ItemPath, p.text = "/".intercalate texts := by
  have hfits : ("/".intercalate texts).utf8ByteSize ≤ 32768 := by
    have hle := h.size_intercalate_le
    omega
  refine ⟨⟨"/".intercalate texts, hfits, ?_⟩, rfl⟩
  rw [h.split_intercalate hne]
  intro segment hsegment
  obtain ⟨text, htext, rfl⟩ := List.mem_map.1 hsegment
  exact h.isSegment text htext

/-- Names of 4096 bytes altogether make a path, one of 8192 bytes at most. -/
theorem exists_parse_of_readAs (h : ReadAs names texts) (hne : names ≠ [])
    (hsum : (names.map (·.bytes.length)).sum ≤ 4096) :
    ∃ base, some <$> parse ("/".intercalate texts) = .ok base ∧
      ∀ path, base = some path → path.text.utf8ByteSize ≤ 8192 := by
  obtain ⟨path, hpath⟩ := exists_of_readAs h hne (by omega)
  refine ⟨some path, map_eq_ok_iff.2 ⟨path, parse_eq_ok_iff.2 hpath, rfl⟩, ?_⟩
  intro path' hpath'
  have hsize := h.size_intercalate_le
  rw [← Option.some.inj hpath', hpath]
  omega

/-- What lies between the slashes of two texts with a slash between them is what lies between those
of the first and then those of the second. -/
theorem split_slash (start rest : String) : Segments.split '/' (start ++ "/" ++ rest).toList =
    Segments.split '/' start.toList ++ Segments.split '/' rest.toList := by
  have htext : (start ++ "/" ++ rest).toList = start.toList ++ '/' :: rest.toList := by
    rw [String.toList_append, String.toList_append, List.append_assoc]
    rfl
  rw [htext, Segments.split_append_cons]

/-- Two texts with a slash between them take one byte more than both. -/
theorem size_joined (start rest : String) :
    (start ++ "/" ++ rest).utf8ByteSize = start.utf8ByteSize + 1 + rest.utf8ByteSize := by
  rw [String.utf8ByteSize_append, String.utf8ByteSize_append]
  rfl

/-- Two texts that spell names spell names with a slash between them. -/
theorem segments_ok_joined {start rest : String}
    (hstart : ∀ segment ∈ Segments.split '/' start.toList, IsSegment segment)
    (hrest : ∀ segment ∈ Segments.split '/' rest.toList, IsSegment segment) :
    ∀ segment ∈ Segments.split '/' (start ++ "/" ++ rest).toList, IsSegment segment := by
  rw [split_slash]
  exact List.forall_mem_append.2 ⟨hstart, hrest⟩

/-- A path below another is one again if they are not too long together. -/
theorem exists_join {base relative : ItemPath}
    (hsize : base.text.utf8ByteSize + relative.text.utf8ByteSize < 32768) :
    ∃ p, base.join relative.text = .ok p := by
  have hfits : (base.text ++ "/" ++ relative.text).utf8ByteSize ≤ 32768 := by
    rw [size_joined]
    omega
  exact ⟨⟨_, hfits, segments_ok_joined base.segments_ok relative.segments_ok⟩,
    parse_eq_ok_iff.2 rfl⟩

end ItemPath

namespace DiskPath

/-- The bytes of a component that is a name. -/
def Component.name? : Component → Option Bytes
  | name bytes => some bytes
  | _ => none

open Component

/-- One component more adds its name to the names at most; none is put before another one. -/
theorem names_push (kept : List Component) (c : Component) :
    ((push kept c).reverse.filterMap name?).Sublist
      (kept.reverse.filterMap name? ++ [c].filterMap name?) := by
  unfold push
  split
  · apply List.sublist_append_left
  · rw [List.reverse_cons, List.filterMap_append, List.append_assoc]
    apply List.sublist_append_left
  · apply List.sublist_append_left
  · rw [List.reverse_cons, List.filterMap_append]

/-- Resolving dots drops names and keeps the order of the others. -/
theorem names_foldl_push (kept cs : List Component) :
    ((cs.foldl push kept).reverse.filterMap name?).Sublist
      (kept.reverse.filterMap name? ++ cs.filterMap name?) := by
  induction cs generalizing kept with
  | nil =>
    rw [List.filterMap_nil, List.append_nil]
    exact List.Sublist.refl _
  | cons c cs ih =>
    have hcons : (c :: cs).filterMap name? = [c].filterMap name? ++ cs.filterMap name? := by
      rw [← List.filterMap_append, List.singleton_append]
    rw [hcons, ← List.append_assoc]
    exact (ih (push kept c)).trans ((names_push kept c).append_right _)

/-- The names in the normal form of a path are among those of the path, in the same order. -/
theorem names_normal (p : DiskPath) :
    (p.normal.filterMap name?).Sublist (p.components.filterMap name?) :=
  names_foldl_push [] p.components

/-- A piece between slashes that can be the name of an entry, but for NUL bytes. -/
abbrev IsName (piece : Bytes) : Prop :=
  piece ≠ [] ∧ piece ≠ [dotByte] ∧ piece ≠ [dotByte, dotByte]

/-- The names among the components that pieces make are the pieces that can be names. -/
theorem names_pieces (pieces : List Bytes) :
    (pieces.filterMap ofPiece?).filterMap name? = pieces.filter fun piece => IsName piece := by
  rw [List.filterMap_filterMap, ← List.filterMap_eq_filter]
  apply List.filterMap_congr
  intro piece _
  by_cases hnil : piece = []
  · simp [ofPiece?, hnil, Option.guard]
  · by_cases hdot : piece = [dotByte]
    · simp [ofPiece?, hdot, name?, Option.guard]
    · by_cases hdots : piece = [dotByte, dotByte] <;>
        simp [ofPiece?, hnil, hdot, hdots, name?, Option.guard]

/-- The names among the components of a path are pieces between its slashes. -/
theorem names_components (p : DiskPath) : (p.components.filterMap name?).Sublist
    ((Segments.split slashByte p.bytes).filter fun piece => IsName piece) := by
  rw [← names_pieces]
  have hkept : ∀ parts : List Component, ((parts.filter (· ≠ .here)).filterMap name?).Sublist
      (parts.filterMap name?) := fun parts => List.filter_sublist.filterMap name?
  unfold components
  dsimp only
  split
  · exact hkept _
  · split
    · rename_i rest hparts
      rw [hparts]
      exact hkept rest
    · exact hkept _

/-- The names in the normal form of a path are names of entries, if it holds no NUL byte; they are
among its components and no longer than it altogether. -/
theorem exists_names {p : DiskPath} (hnul : 0 ∉ p.bytes) : ∃ names : List FileName,
    p.normal.filterMap name? = names.map (·.bytes) ∧
    (∀ name ∈ names, .name name.bytes ∈ p.components) ∧
    (names.map (·.bytes.length)).sum ≤ p.bytes.length := by
  have hsub := p.names_normal.trans p.names_components
  have hname : ∀ bytes ∈ p.normal.filterMap name?, ∃ name : FileName, name.bytes = bytes := by
    intro bytes hbytes
    obtain ⟨hpiece, hname⟩ := List.mem_filter.1 (hsub.subset hbytes)
    obtain ⟨hne, hdot, hdots⟩ : IsName bytes := by simpa using hname
    have hfree : 0 ∉ bytes := by
      intro hzero
      apply hnul
      rw [← Segments.join_split slashByte p.bytes]
      exact Segments.mem_join_of_mem hpiece hzero
    exact ⟨⟨bytes, hne, hdot, hdots, Segments.not_mem_of_mem_split hpiece, hfree⟩, rfl⟩
  have hrange : p.normal.filterMap name? ∈ Set.range (List.map FileName.bytes) := by
    rw [Set.range_list_map]
    exact hname
  obtain ⟨names, hnames⟩ := hrange
  refine ⟨names, hnames.symm, ?_, ?_⟩
  · intro name hmem
    have hbytes : name.bytes ∈ p.normal.filterMap name? := by
      rw [← hnames]
      exact List.mem_map_of_mem hmem
    obtain ⟨c, hc, hcname⟩ := List.mem_filterMap.1 (p.names_normal.subset hbytes)
    cases c with
    | name bytes =>
      cases hcname
      exact hc
    | _ => cases hcname
  · have hlengths := (hsub.trans List.filter_sublist).map List.length
    rw [← hnames, List.map_map] at hlengths
    calc (names.map (·.bytes.length)).sum
        ≤ ((Segments.split slashByte p.bytes).map List.length).sum := by
          apply hlengths.sum_le_sum
          intro n _
          exact Nat.zero_le n
      _ ≤ (Segments.join slashByte (Segments.split slashByte p.bytes)).length := by
          apply Segments.sum_length_le_join
      _ = p.bytes.length := by rw [Segments.join_split]

end DiskPath

namespace ItemPath

section

variable {p : DiskPath} (hnul : 0 ∉ p.bytes) (hlength : p.bytes.length ≤ 4096)
  (htext : ∀ bytes, .name bytes ∈ p.components → ∃ text, Utf8.decode? bytes = some text)

include hnul hlength htext

/-- The names in the normal form of a path can be read. -/
theorem exists_diskNames : ∃ (names : List FileName) (texts : List String),
    p.normal.filterMap DiskPath.Component.name? = names.map (·.bytes) ∧ ReadAs names texts ∧
      diskNames p = .ok texts ∧ (names.map (·.bytes.length)).sum ≤ 4096 := by
  obtain ⟨names, hnormal, hcomponents, hsum⟩ := DiskPath.exists_names hnul
  obtain ⟨texts, hread⟩ := exists_readAs_iff.2 fun name hname => htext _ (hcomponents name hname)
  refine ⟨names, texts, hnormal, hread, ?_, hsum.trans hlength⟩
  show (p.normal.filterMap DiskPath.Component.name?).mapM (nameText p) = .ok texts
  rw [hnormal, mapM_eq_ok_iff, List.forall₂_map_left_iff]
  exact hread.imp fun name text h => nameText_eq_ok_iff.2 h

/-- A short path whose names can be read yields the path of its names or none, and no error. -/
theorem exists_ofDiskNames? : ∃ base, ofDiskNames? p = .ok base ∧
    ∀ path, base = some path → path.text.utf8ByteSize ≤ 8192 := by
  obtain ⟨names, texts, -, hread, hnames, hsum⟩ := exists_diskNames hnul hlength htext
  unfold ofDiskNames?
  rw [hnames]
  cases hread with
  | nil => exact ⟨none, rfl, nofun⟩
  | @cons name text names texts hname hrest =>
    exact exists_parse_of_readAs (.cons hname hrest) (List.cons_ne_nil _ _) hsum

/-- A short path whose names can be read yields a path inside an archive or none, and no error. -/
theorem exists_ofDisk? : ∃ base, ofDisk? p none = .ok base ∧
    ∀ path, base = some path → path.text.utf8ByteSize ≤ 8192 := by
  obtain ⟨names, texts, hnormal, hread, hnames, hsum⟩ := exists_diskNames hnul hlength htext
  unfold ofDisk?
  split
  · rename_i bytes hlast
    have hmem : bytes ∈ p.normal.filterMap DiskPath.Component.name? :=
      List.mem_filterMap.2 ⟨_, List.mem_of_getLast? hlast, rfl⟩
    rw [hnormal] at hmem
    obtain ⟨name, hname, rfl⟩ := List.mem_map.1 hmem
    obtain ⟨last, hlast⟩ := exists_readAs_iff.1 ⟨texts, hread⟩ name hname
    rw [nameText_eq_ok_iff.2 hlast, hnames]
    dsimp only [bind, Except.bind]
    split
    · have hone : ReadAs [name] [last] := .cons hlast .nil
      have hle : name.bytes.length ≤ (names.map (·.bytes.length)).sum :=
        List.single_le_sum (fun _ _ => Nat.zero_le _) _ (List.mem_map_of_mem hname)
      have hparse := exists_parse_of_readAs hone (List.cons_ne_nil _ _) (by simp; omega)
      rwa [String.intercalate_singleton] at hparse
    · exact exists_parse_of_readAs hread (List.ne_nil_of_mem hname) hsum
  · exact ⟨none, rfl, nofun⟩

end

end ItemPath

end ArchiveUpdate
