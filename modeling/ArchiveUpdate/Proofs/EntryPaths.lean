import ArchiveUpdate.Listing
import ArchiveUpdate.Proofs.ChangeEffects
import ArchiveUpdate.Proofs.Collecting

/-!
# The in-archive paths of walked entries

A name on disk holds no slash and is neither of the dots.  So the relative path made of the names
that lead to an entry falls apart into just these names and is in normal form as it stands, and the
path inside the archive made of it consists of the names as text (`ofDiskNames?_relativePath`).
-/

set_option autoImplicit false

namespace ArchiveUpdate

/-- Names on disk and the texts that they are read as. -/
abbrev ReadAs (names : List FileName) (texts : List String) : Prop :=
  List.Forall₂ (fun name text => Utf8.decode? name.bytes = some text) names texts

/-- The name of a file stands for itself between slashes. -/
theorem FileName.ofPiece?_bytes (name : FileName) :
    DiskPath.Component.ofPiece? name.bytes = some (.name name.bytes) := by
  unfold DiskPath.Component.ofPiece?
  rw [if_neg name.ne_nil, if_neg name.ne_dot, if_neg name.ne_dots]

/-- Names are stacked one on the other, as none cancels another. -/
theorem DiskPath.foldl_push_names (names : List FileName) (kept : List Component) :
    (names.map fun n => Component.name n.bytes).foldl Component.push kept =
      (names.map fun n => Component.name n.bytes).reverse ++ kept := by
  induction names generalizing kept with
  | nil => rfl
  | cons name names ih =>
    simp only [List.map_cons, List.foldl_cons, List.reverse_cons, List.append_assoc]
    apply ih

/-- A name has a text if its bytes are one. -/
theorem nameText_eq_ok_iff {p : DiskPath} {name : Bytes} {text : String} :
    ItemPath.nameText p name = .ok text ↔ Utf8.decode? name = some text := by
  unfold ItemPath.nameText
  cases Utf8.decode? name <;> simp

namespace Listing

variable {names : List FileName}

/-- Between the slashes of a relative path are the names that it was made of. -/
theorem split_relativePath (hne : names ≠ []) :
    Segments.split slashByte (relativePath names).bytes = names.map (·.bytes) := by
  apply Segments.split_join
  · intro h
    exact hne (List.map_eq_nil_iff.1 h)
  · intro piece hpiece
    obtain ⟨name, -, rfl⟩ := List.mem_map.1 hpiece
    exact name.slash

/-- A path made of names is relative. -/
theorem isAbsolute_relativePath (names : List FileName) :
    (relativePath names).isAbsolute = false := by
  cases names with
  | nil => rfl
  | cons name names =>
    obtain ⟨b, bs, hbytes⟩ := List.exists_cons_of_ne_nil name.ne_nil
    have hb : b ≠ slashByte := by
      rintro rfl
      exact name.slash (by rw [hbytes]; exact List.mem_cons_self)
    cases names with
    | nil => simp [relativePath, DiskPath.isAbsolute, Segments.join, hbytes, hb]
    | cons next names => simp [relativePath, DiskPath.isAbsolute, Segments.join, hbytes, hb]

/-- The components of a path made of names are these names. -/
theorem components_relativePath (hne : names ≠ []) :
    (relativePath names).components = names.map fun n => .name n.bytes := by
  have hparts : (names.map (·.bytes)).filterMap DiskPath.Component.ofPiece? =
      names.map fun n => .name n.bytes := by
    rw [List.filterMap_map]
    apply List.filterMap_eq_map_iff_forall_eq_some.2
    intro name _
    exact name.ofPiece?_bytes
  have hnames : (names.map fun n => DiskPath.Component.name n.bytes).filter (· ≠ .here) =
      names.map fun n => .name n.bytes := by
    apply List.filter_eq_self.2
    intro c hc
    obtain ⟨name, -, rfl⟩ := List.mem_map.1 hc
    rfl
  unfold DiskPath.components
  rw [split_relativePath hne, hparts, isAbsolute_relativePath]
  cases names with
  | nil => exact absurd rfl hne
  | cons name names => exact hnames

/-- A path made of names is in normal form. -/
theorem normal_relativePath (hne : names ≠ []) :
    (relativePath names).normal = names.map fun n => .name n.bytes := by
  unfold DiskPath.normal
  rw [components_relativePath hne, DiskPath.foldl_push_names, List.append_nil, List.reverse_reverse]

/-- All names of a path made of names have a text if they can be read as texts. -/
theorem diskNames_relativePath_eq_ok_iff (hne : names ≠ []) {texts : List String} :
    ItemPath.diskNames (relativePath names) = .ok texts ↔ ReadAs names texts := by
  have hbytes : ∀ f : DiskPath.Component → Option Bytes, (∀ bytes, f (.name bytes) = some bytes) →
      (relativePath names).normal.filterMap f = names.map (·.bytes) := by
    intro f hf
    rw [normal_relativePath hne, List.filterMap_map]
    apply List.filterMap_eq_map_iff_forall_eq_some.2
    intro name _
    apply hf
  unfold ItemPath.diskNames
  rw [hbytes]
  · rw [mapM_eq_ok_iff, List.forall₂_map_left_iff]
    simp only [nameText_eq_ok_iff]
  · intro bytes
    rfl

/-- The in-archive path of a walked entry is its names with slashes between them. -/
theorem ofDiskNames?_relativePath (hne : names ≠ []) {found : Option ItemPath} :
    ItemPath.ofDiskNames? (relativePath names) = .ok found ↔
      ∃ path texts, ReadAs names texts ∧ path.text = "/".intercalate texts ∧
        found = some path := by
  unfold ItemPath.ofDiskNames?
  rw [bind_eq_ok_iff]
  simp only [diskNames_relativePath_eq_ok_iff hne]
  constructor
  · rintro ⟨texts, hread, h⟩
    cases hread with
    | nil => exact absurd rfl hne
    | @cons name text names texts hname hread =>
      obtain ⟨path, hpath, rfl⟩ := map_eq_ok_iff.1 h
      exact ⟨path, _, .cons hname hread, ItemPath.parse_eq_ok_iff.1 hpath, rfl⟩
  · rintro ⟨path, texts, hread, hpath, rfl⟩
    refine ⟨texts, hread, ?_⟩
    cases hread with
    | nil => exact absurd rfl hne
    | cons hname hread =>
      show some <$> ItemPath.parse _ = .ok (some path)
      rw [ItemPath.parse_eq_ok_iff.2 hpath]
      rfl

end Listing

end ArchiveUpdate
