import ArchiveUpdate.Proofs.PathGrammar

/-!
# The text of an item path as a path on disk

In UTF-8 the byte of a slash stands for slashes only, so a name inside an archive is written on disk
as one name (`IsSegment.fileName`).  The text of an item path, taken as a path on disk, leads down
through its names (`ItemPath.ofString_text`), and these make the item path again
(`ItemPath.ofDiskNames?_ofString`).
-/

set_option autoImplicit false

namespace ArchiveUpdate

namespace Utf8

/-- A character of one byte is the only one in whose bytes this byte occurs. -/
theorem eq_of_mem_encodeChar {b : UInt8} {c : Char} (hb : b.toNat < 0x80)
    (h : b ∈ String.utf8EncodeChar c) : c = Char.ofNat b.toNat := by
  have hbyte : ∀ k, k < 256 → b = UInt8.ofNat k → b.toNat = k := by
    rintro k hk rfl
    exact UInt8.toNat_ofNat_of_lt' hk
  have hvalid : c.val.toNat < 0x110000 := by
    rcases c.valid with hlow | hhigh
    · exact hlow.trans (by decide)
    · exact hhigh.2
  have hchar : Char.ofNat c.val.toNat = c := Char.ofNat_toNat c
  unfold String.utf8EncodeChar at h
  generalize c.val.toNat = n at h hvalid hchar
  dsimp only at h
  split at h
  · rw [hbyte n (by omega) (List.mem_singleton.1 h), hchar]
  · -- every byte of a longer character is 0x80 or more
    have hlarge : ∀ k, k < 256 → 0x80 ≤ k → b ≠ UInt8.ofNat k := by
      intro k hk hle heq
      rw [hbyte k hk heq] at hb
      omega
    exfalso
    split at h
    · simp only [List.mem_cons, List.not_mem_nil, or_false] at h
      rcases h with h | h
      all_goals exact hlarge _ (by omega) (by omega) h
    · split at h
      · simp only [List.mem_cons, List.not_mem_nil, or_false] at h
        rcases h with h | h | h
        all_goals exact hlarge _ (by omega) (by omega) h
      · simp only [List.mem_cons, List.not_mem_nil, or_false] at h
        rcases h with h | h | h | h
        all_goals exact hlarge _ (by omega) (by omega) h

/-- A byte below 0x80 among the bytes of a text is one of its characters. -/
theorem mem_of_mem_encode {b : UInt8} {cs : List Char} (hb : b.toNat < 0x80)
    (h : b ∈ encode cs) : Char.ofNat b.toNat ∈ cs := by
  obtain ⟨c, hc, hbyte⟩ := List.mem_flatMap.1 h
  rwa [← eq_of_mem_encodeChar hb hbyte]

/-- The bytes of two texts in a row are the bytes of the first and then those of the second. -/
theorem encode_append (cs ds : List Char) : encode (cs ++ ds) = encode cs ++ encode ds :=
  List.flatMap_append

/-- Different texts have different bytes. -/
theorem encode_injective {cs ds : List Char} (h : encode cs = encode ds) : cs = ds := by
  have hread := decode?_encode cs
  rw [h, decode?_encode, Option.some.injEq] at hread
  exact (String.ofList_injective hread).symm

/-- The bytes of a text with slashes in it are those of its pieces, with slashes between them. -/
theorem encode_join (pieces : List (List Char)) :
    encode (Segments.join '/' pieces) = Segments.join slashByte (pieces.map encode) := by
  induction pieces with
  | nil => rfl
  | cons piece rest ih =>
    cases rest with
    | nil => rfl
    | cons next rest =>
      have hslash : encode ('/' :: Segments.join '/' (next :: rest)) =
          slashByte :: encode (Segments.join '/' (next :: rest)) := rfl
      rw [Segments.join, encode_append, hslash, ih]
      rfl

end Utf8

/-- The name on disk that is written like a name inside an archive. -/
def IsSegment.fileName {segment : List Char} (h : IsSegment segment) : FileName where
  bytes := Utf8.encode segment
  ne_nil := fun hnil => h.ne_nil (Utf8.encode_injective hnil)
  ne_dot := fun hdot => h.ne_dot (Utf8.encode_injective hdot)
  ne_dots := fun hdots => h.ne_dots (Utf8.encode_injective hdots)
  slash := fun hslash => h.slash (Utf8.mem_of_mem_encode (by decide) hslash)
  nul := fun hnul => h.nul (Utf8.mem_of_mem_encode (by decide) hnul)

namespace ItemPath

/-- The segments of a path are names inside an archive. -/
theorem isSegment_of_mem_segments (a : ItemPath) : ∀ segment ∈ a.segments, IsSegment segment :=
  a.segments_ok

/-- The names on disk that are written like the names of a path inside an archive. -/
def fileNames (a : ItemPath) : List FileName :=
  a.segments.pmap (fun _ h => h.fileName) a.isSegment_of_mem_segments

/-- The names on disk hold the bytes of the segments. -/
theorem bytes_fileNames (a : ItemPath) :
    a.fileNames.map (·.bytes) = a.segments.map Utf8.encode := by
  rw [fileNames, List.map_pmap]
  exact List.pmap_eq_map a.isSegment_of_mem_segments

/-- A path inside an archive has a name. -/
theorem fileNames_ne_nil (a : ItemPath) : a.fileNames ≠ [] := by
  intro hnil
  have hsegments := a.bytes_fileNames
  rw [hnil, List.map_nil] at hsegments
  exact a.segments_ne_nil (List.map_eq_nil_iff.1 hsegments.symm)

/-- The text of a path inside an archive, taken as a path on disk, leads down through its names. -/
theorem ofString_text (a : ItemPath) :
    DiskPath.ofString a.text = Listing.relativePath a.fileNames := by
  rw [DiskPath.ofString, ← a.join_segments, Utf8.encode_join, ← a.bytes_fileNames]
  rfl

/-- The names on disk are read as the segments that they are written like. -/
theorem readAs_fileNames (a : ItemPath) : ReadAs a.fileNames (a.segments.map String.ofList) := by
  have hread : List.Forall₂ (fun bytes text => Utf8.decode? bytes = some text)
      (a.fileNames.map (·.bytes)) (a.segments.map String.ofList) := by
    rw [a.bytes_fileNames, List.forall₂_map_left_iff, List.forall₂_map_right_iff,
      List.forall₂_same]
    intro segment _
    exact Utf8.decode?_encode segment
  rwa [List.forall₂_map_left_iff] at hread

/-- All names of the text of a path inside an archive make this very path. -/
theorem ofDiskNames?_ofString (a : ItemPath) :
    ofDiskNames? (DiskPath.ofString a.text) = .ok (some a) := by
  rw [a.ofString_text, Listing.ofDiskNames?_relativePath a.fileNames_ne_nil]
  exact ⟨a, _, a.readAs_fileNames, (Spells.of_split a.segments_ok).text_eq, rfl⟩

/-- The text of a path is a plain path on disk. -/
theorem isPlain_ofString (a : ItemPath) : (DiskPath.ofString a.text).isPlain = true := by
  rw [a.ofString_text, DiskPath.isPlain, Listing.components_relativePath a.fileNames_ne_nil,
    List.all_map]
  exact List.all_eq_true.2 fun _ _ => rfl

end ItemPath

end ArchiveUpdate
