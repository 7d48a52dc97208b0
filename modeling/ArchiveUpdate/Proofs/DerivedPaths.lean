import ArchiveUpdate.Proofs.PathsFromNames

/-!
# Two in-archive paths for one path on disk

Resolving dots leaves a path in which no name comes before a root or a double dot
(`stacked_normal`), so its last component is a name as soon as there is one (`getLast?_names`).
Hence the path made of all names of a disk path and the one that may keep the last name alone are
both missing exactly for a disk path without names (`ofDiskNames?_eq_none_iff`,
`ofDisk?_eq_none_iff`); they are the same for a path that plainly descends from the current
directory (`ofDisk?_of_isPlain`), and for every other path the second is the last name of the first
(`ofDisk?_of_not_isPlain`), as it is below a given path (`ofDisk?_below`).
-/

set_option autoImplicit false

namespace ArchiveUpdate

namespace DiskPath

open Component

/-- What was kept while dots were resolved, the latest in front: below what is no name there is no
name either. -/
def Stacked : List Component → Prop
  | [] => True
  | c :: rest => (c.name? = none → ∀ d ∈ rest, d.name? = none) ∧ Stacked rest

/-- Only the beginning of a path brings in a root, so no step puts one on a name. -/
theorem stacked_push {kept : List Component} {c : Component} (h : Stacked kept) (hc : c ≠ .root) :
    Stacked (push kept c) := by
  unfold push
  split
  · exact h
  · exact h.2
  · exact h
  · rename_i hhere hname hroot
    refine ⟨fun hcnone => ?_, h⟩
    cases c with
    | root => exact absurd rfl hc
    | here => exact absurd rfl hhere
    | name bytes => cases hcnone
    | up =>
      cases kept with
      | nil => exact List.forall_mem_nil _
      | cons d rest =>
        cases d with
        | name bytes => exact absurd rfl (hname bytes rest rfl)
        | root => exact absurd rfl (hroot rest rfl)
        | here => exact List.forall_mem_cons.2 ⟨rfl, h.1 rfl⟩
        | up => exact List.forall_mem_cons.2 ⟨rfl, h.1 rfl⟩

/-- Steps that are not the root keep the order of root, double dots and names. -/
theorem stacked_foldl_push {kept cs : List Component} (h : Stacked kept)
    (hcs : ∀ c ∈ cs, c ≠ .root) : Stacked (cs.foldl push kept) := by
  induction cs generalizing kept with
  | nil => exact h
  | cons c cs ih =>
    obtain ⟨hc, hrest⟩ := List.forall_mem_cons.1 hcs
    exact ih (stacked_push h hc) hrest

/-- What stands between slashes is never the root. -/
theorem ofPiece?_ne_root (piece : Bytes) : ofPiece? piece ≠ some .root := by
  unfold ofPiece?
  repeat' split
  all_goals simp

/-- The root is the first component of an absolute path, and there is no other. -/
theorem components_eq (p : DiskPath) : ∃ rest, (∀ c ∈ rest, c ≠ .root) ∧
    p.components = if p.isAbsolute then .root :: rest else rest := by
  have hparts : ∀ c ∈ (Segments.split slashByte p.bytes).filterMap ofPiece?, c ≠ .root := by
    rintro c hc rfl
    obtain ⟨piece, -, hpiece⟩ := List.mem_filterMap.1 hc
    exact ofPiece?_ne_root piece hpiece
  unfold components
  dsimp only
  split
  · exact ⟨_, fun c hc => hparts c (List.mem_filter.1 hc).1, rfl⟩
  · split
    · rename_i rest hrest
      rw [hrest, List.forall_mem_cons] at hparts
      refine ⟨_, ?_, rfl⟩
      exact List.forall_mem_cons.2 ⟨hparts.1, fun c hc => hparts.2 c (List.mem_filter.1 hc).1⟩
    · exact ⟨_, fun c hc => hparts c (List.mem_filter.1 hc).1, rfl⟩

/-- A normal form has its root first, then its double dots, then its names. -/
theorem stacked_normal (p : DiskPath) : Stacked p.normal.reverse := by
  obtain ⟨rest, hrest, hcomponents⟩ := p.components_eq
  rw [normal, List.reverse_reverse, hcomponents]
  by_cases habsolute : p.isAbsolute
  · rw [if_pos habsolute, List.foldl_cons]
    exact stacked_foldl_push ⟨fun _ => List.forall_mem_nil _, trivial⟩ hrest
  · rw [if_neg habsolute]
    exact stacked_foldl_push trivial hrest

/-- A path is plain if it is relative and no dot component occurs in it. -/
theorem isPlain_eq (p : DiskPath) : p.isPlain = !(p.isAbsolute || p.hasDots) := by
  obtain ⟨rest, hrest, hcomponents⟩ := p.components_eq
  unfold isPlain hasDots
  rw [hcomponents]
  cases p.isAbsolute with
  | true => rfl
  | false =>
    show rest.all _ = !rest.any _
    rw [List.not_any_eq_all_not, Bool.eq_iff_iff, List.all_eq_true, List.all_eq_true]
    refine forall₂_congr fun c hc => ?_
    cases c with
    | root => exact absurd rfl (hrest _ hc)
    | here => exact iff_of_false nofun nofun
    | up => exact iff_of_false nofun nofun
    | name bytes => exact iff_of_true rfl rfl

/-- A path has dots if one of its components is a single or a double dot. -/
theorem hasDots_eq_true_iff {p : DiskPath} :
    p.hasDots = true ↔ .here ∈ p.components ∨ .up ∈ p.components := by
  rw [hasDots, List.any_eq_true]
  constructor
  · rintro ⟨c, hc, hdot⟩
    cases c with
    | here => exact .inl hc
    | up => exact .inr hc
    | _ => cases hdot
  · rintro (hc | hc)
    · exact ⟨_, hc, rfl⟩
    · exact ⟨_, hc, rfl⟩

/-- A path does not plainly descend if it is absolute or has a single or double dot. -/
theorem isPlain_eq_false_iff {p : DiskPath} : p.isPlain = false ↔
    p.isAbsolute = true ∨ .here ∈ p.components ∨ .up ∈ p.components := by
  rw [p.isPlain_eq, Bool.not_eq_false', Bool.or_eq_true, hasDots_eq_true_iff]

/-- In reverse, the names of a normal form begin as it begins, if it begins with a name. -/
theorem head?_names {kept : List Component} (h : Stacked kept) :
    (kept.filterMap name?).head? = kept.head?.bind name? := by
  cases kept with
  | nil => rfl
  | cons c rest =>
    rw [List.head?_cons, Option.bind_some]
    cases hc : c.name? with
    | some bytes => rw [List.filterMap_cons_some hc, List.head?_cons]
    | none =>
      rw [List.filterMap_cons_none hc, List.filterMap_eq_nil_iff.2 (h.1 hc)]
      rfl

/-- The names left in the normal form of a path. -/
def names (p : DiskPath) : List Bytes := p.normal.filterMap name?

/-- The last of all names is the last component of the normal form, if that is a name. -/
theorem getLast?_names (p : DiskPath) : p.names.getLast? = p.normal.getLast?.bind name? := by
  have h := head?_names p.stacked_normal
  rwa [List.filterMap_reverse, List.head?_reverse, List.head?_reverse] at h

/-- If there is a last name, the normal form ends in it. -/
theorem getLast?_normal {p : DiskPath} {bytes : Bytes} (h : p.names.getLast? = some bytes) :
    p.normal.getLast? = some (.name bytes) := by
  rw [p.getLast?_names] at h
  obtain ⟨c, hc, hname⟩ := Option.bind_eq_some_iff.1 h
  cases c with
  | name bytes' =>
    cases hname
    exact hc
  | _ => cases hname

/-- A name of a path has no slash in it. -/
theorem slash_notMem_of_mem_names {p : DiskPath} {bytes : Bytes} (h : bytes ∈ p.names) :
    slashByte ∉ bytes := by
  have hpiece := (p.names_normal.trans p.names_components).subset h
  exact Segments.not_mem_of_mem_split (List.mem_filter.1 hpiece).1

end DiskPath

/-- A piece of a text takes no more bytes than the text. -/
theorem Utf8.size_le_join {sep : Char} {piece : List Char} {pieces : List (List Char)}
    (h : piece ∈ pieces) : size piece ≤ size (Segments.join sep pieces) := by
  induction pieces with
  | nil => cases h
  | cons head rest ih =>
    cases rest with
    | nil =>
      rw [List.mem_singleton.1 h]
      exact Nat.le_refl _
    | cons next rest =>
      rw [Segments.join, size_append, size]
      rcases List.mem_cons.1 h with rfl | h
      · omega
      · have hle := ih h
        omega

namespace ItemPath

variable {p : DiskPath} {q : ItemPath}

/-- The only fault of a name is that it is not text. -/
theorem nameText_eq_error {bytes : Bytes} {e : UpdateError} (h : nameText p bytes = .error e) :
    e = notText p := by
  unfold nameText at h
  split at h
  · cases h
  · cases h
    rfl

/-- The names of a path are read as texts, or it is refused as a whole. -/
theorem diskNames_cases (p : DiskPath) : diskNames p = .error (notText p) ∨
    ∃ texts, diskNames p = .ok texts ∧
      List.Forall₂ (fun bytes text => Utf8.decode? bytes = some text) p.names texts := by
  have hnames : diskNames p = p.names.mapM (nameText p) := rfl
  rw [hnames]
  cases hread : p.names.mapM (nameText p) with
  | error e =>
    left
    obtain ⟨bytes, -, herror⟩ := exists_of_mapM_eq_error hread
    rw [nameText_eq_error herror]
  | ok texts =>
    refine .inr ⟨texts, rfl, (mapM_eq_ok_iff.1 hread).imp fun bytes text h => ?_⟩
    exact nameText_eq_ok_iff.1 h

/-- From a path without names no path is derived. -/
theorem ofDisk?_of_names_eq_nil (h : p.names = []) : ofDisk? p none = .ok none := by
  have hlast := p.getLast?_names
  rw [h] at hlast
  unfold ofDisk?
  split
  · rename_i hname
    rw [hname] at hlast
    cases hlast
  · rfl

/-- The last name is read first, whatever becomes of the others. -/
theorem ofDisk?_of_getLast? {bytes : Bytes} (h : p.names.getLast? = some bytes) :
    ofDisk? p none = nameText p bytes >>= fun last =>
      if p.isAbsolute || p.hasDots then some <$> parse last
      else diskNames p >>= fun texts => some <$> parse ("/".intercalate texts) := by
  unfold ofDisk?
  rw [DiskPath.getLast?_normal h]

/-- Without names all names make no path. -/
theorem ofDiskNames?_of_names_eq_nil (h : p.names = []) : ofDiskNames? p = .ok none := by
  have hread : diskNames p = .ok [] := by
    show p.names.mapM (nameText p) = .ok []
    rw [h]
    rfl
  unfold ofDiskNames?
  rw [hread]
  rfl

/-- All names make the path of their texts with slashes between them. -/
theorem ofDiskNames?_of_names_ne_nil (h : p.names ≠ []) :
    ofDiskNames? p = diskNames p >>= fun texts => some <$> parse ("/".intercalate texts) := by
  unfold ofDiskNames?
  rcases diskNames_cases p with herror | ⟨texts, htexts, hread⟩
  · rw [herror]
    rfl
  · rw [htexts]
    cases texts with
    | nil => exact absurd (List.forall₂_nil_right_iff.1 hread) h
    | cons => rfl

/-- A path that plainly descends from the current directory keeps all its names. -/
theorem ofDisk?_of_isPlain (h : p.isPlain = true) : ofDisk? p none = ofDiskNames? p := by
  rw [p.isPlain_eq, Bool.not_eq_true'] at h
  cases hlast : p.names.getLast? with
  | none =>
    have hnil := List.getLast?_eq_none_iff.1 hlast
    rw [ofDisk?_of_names_eq_nil hnil, ofDiskNames?_of_names_eq_nil hnil]
  | some bytes =>
    have hmem : bytes ∈ p.names := List.mem_of_getLast? hlast
    rw [ofDisk?_of_getLast? hlast, h, ofDiskNames?_of_names_ne_nil (List.ne_nil_of_mem hmem)]
    rcases diskNames_cases p with herror | ⟨texts, htexts, hread⟩
    · rw [herror]
      cases hname : nameText p bytes with
      | error e =>
        rw [nameText_eq_error hname]
        rfl
      | ok last => rfl
    · obtain ⟨text, -, htext⟩ := exists_of_forall₂ hread.flip hmem
      rw [htexts, nameText_eq_ok_iff.2 htext]
      rfl

/-- The name of a path is its last segment. -/
theorem name_eq_of_getLast? {segment : List Char} (h : q.segments.getLast? = some segment) :
    q.name = String.ofList segment := by
  rw [name, List.getLastD_eq_getLast?, h, Option.getD_some]

/-- The other segments and the name are all segments. -/
theorem dropLast_concat_name (q : ItemPath) :
    q.segments.dropLast ++ [q.name.toList] = q.segments := by
  have hlast := List.getLast?_eq_some_getLast q.segments_ne_nil
  rw [name_eq_of_getLast? hlast, String.toList_ofList, List.dropLast_concat_getLast]

/-- The name of a path is one of its segments. -/
theorem name_mem_segments (q : ItemPath) : q.name.toList ∈ q.segments := by
  rw [← q.dropLast_concat_name]
  exact List.mem_append_right _ (List.mem_singleton_self _)

/-- The name of a path can be a segment. -/
theorem isSegment_name (q : ItemPath) : IsSegment q.name.toList :=
  q.segments_ok _ q.name_mem_segments

/-- The last name of a path is a path. -/
theorem exists_name (q : ItemPath) : ∃ r : ItemPath, r.text = q.name := by
  refine ⟨⟨q.name, ?_, ?_⟩, rfl⟩
  · have htext : q.text = String.ofList (Segments.join '/' q.segments) := by
      rw [join_segments, String.ofList_toList]
    have hsize := q.size_le
    rw [htext, Utf8.utf8ByteSize_ofList] at hsize
    rw [← String.ofList_toList (s := q.name), Utf8.utf8ByteSize_ofList]
    exact (Utf8.size_le_join q.name_mem_segments).trans hsize
  · rw [Segments.split_of_not_mem q.isSegment_name.slash]
    exact List.forall_mem_singleton.2 q.isSegment_name

/-- The names of the path that all names of a disk path make are these names read as texts. -/
theorem segments_of_ofDiskNames? (hq : ofDiskNames? p = .ok (some q)) :
    ∃ texts, List.Forall₂ (fun bytes text => Utf8.decode? bytes = some text) p.names texts ∧
      q.segments = texts.map String.toList := by
  have hnames : p.names ≠ [] := by
    intro hnil
    rw [ofDiskNames?_of_names_eq_nil hnil] at hq
    cases hq
  rw [ofDiskNames?_of_names_ne_nil hnames] at hq
  obtain ⟨texts, htexts, hq⟩ := bind_eq_ok_iff.1 hq
  obtain ⟨q', hparse, hsome⟩ := map_eq_ok_iff.1 hq
  obtain rfl := Option.some.inj hsome
  have hread : List.Forall₂ (fun bytes text => Utf8.decode? bytes = some text) p.names texts := by
    rcases diskNames_cases p with herror | ⟨texts', htexts', hread⟩
    · rw [herror] at htexts
      cases htexts
    · rw [htexts'] at htexts
      cases htexts
      exact hread
  have hne : texts ≠ [] := by
    rintro rfl
    exact hnames (List.forall₂_nil_right_iff.1 hread)
  have hslash : ∀ text ∈ texts, '/' ∉ text.toList := by
    intro text htext hmem
    obtain ⟨bytes, hbytes, hdecoded⟩ := exists_of_forall₂ hread htext
    exact DiskPath.slash_notMem_of_mem_names hbytes
      (Utf8.mem_of_decode? hdecoded hmem (by decide))
  refine ⟨texts, hread, ?_⟩
  rw [segments, parse_eq_ok_iff.1 hparse]
  exact split_intercalate hne hslash

/-- If all names of a path make a path inside an archive, its last name reads as the last name of
that one. -/
theorem nameText_of_ofDiskNames? (hq : ofDiskNames? p = .ok (some q)) :
    ∃ bytes, p.names.getLast? = some bytes ∧ nameText p bytes = .ok q.name := by
  obtain ⟨texts, hread, hsegments⟩ := segments_of_ofDiskNames? hq
  have hlast : q.segments.getLast? = some q.name.toList := by
    rw [← q.dropLast_concat_name, List.getLast?_concat]
  rw [hsegments, List.getLast?_map] at hlast
  obtain ⟨last, hlast, hname⟩ := Option.map_eq_some_iff.1 hlast
  obtain rfl := String.toList_inj.1 hname
  obtain ⟨bytes, hbytes, hdecoded⟩ := getLast?_of_forall₂ hread.flip hlast
  exact ⟨bytes, hbytes, nameText_eq_ok_iff.2 hdecoded⟩

/-- Of a path that is rooted or has dots in it, what may stand for it is the last name of the path
made of all its names. -/
theorem ofDisk?_of_not_isPlain (h : p.isPlain = false) (hq : ofDiskNames? p = .ok (some q)) :
    ∃ r, ofDisk? p none = .ok (some r) ∧ r.text = q.name := by
  obtain ⟨bytes, hbytes, hlast⟩ := nameText_of_ofDiskNames? hq
  obtain ⟨r, hr⟩ := q.exists_name
  refine ⟨r, ?_, hr⟩
  rw [p.isPlain_eq, Bool.not_eq_false'] at h
  rw [ofDisk?_of_getLast? hbytes, hlast, h]
  show some <$> parse q.name = _
  rw [parse_eq_ok_iff.2 hr]
  rfl

/-- Below a given path stands the last name, whatever the path on disk looks like. -/
theorem ofDisk?_below (hq : ofDiskNames? p = .ok (some q)) (base : ItemPath) :
    ofDisk? p (some base) = some <$> base.join q.name := by
  obtain ⟨bytes, hbytes, hlast⟩ := nameText_of_ofDiskNames? hq
  unfold ofDisk?
  rw [DiskPath.getLast?_normal hbytes]
  show (nameText p bytes >>= fun last => some <$> base.join last) = _
  rw [hlast]
  rfl

/-- Only for a path without names is there nothing that stands for it. -/
theorem ofDisk?_eq_none_iff : ofDisk? p none = .ok none ↔ p.names = [] := by
  refine ⟨fun h => ?_, ofDisk?_of_names_eq_nil⟩
  by_contra hne
  rw [ofDisk?_of_getLast? (List.getLast?_eq_some_getLast hne)] at h
  obtain ⟨last, -, h⟩ := bind_eq_ok_iff.1 h
  split at h
  · obtain ⟨r, -, hr⟩ := map_eq_ok_iff.1 h
    cases hr
  · obtain ⟨texts, -, h⟩ := bind_eq_ok_iff.1 h
    obtain ⟨r, -, hr⟩ := map_eq_ok_iff.1 h
    cases hr

/-- All names make no path exactly if there are none. -/
theorem ofDiskNames?_eq_none_iff : ofDiskNames? p = .ok none ↔ p.names = [] := by
  refine ⟨fun h => ?_, ofDiskNames?_of_names_eq_nil⟩
  by_contra hne
  rw [ofDiskNames?_of_names_ne_nil hne] at h
  obtain ⟨texts, -, h⟩ := bind_eq_ok_iff.1 h
  obtain ⟨r, -, hr⟩ := map_eq_ok_iff.1 h
  cases hr

/-- Both derivations yield nothing for the same disk paths, and the one that may keep the last name
alone fails only where the one that keeps all names fails.  Where all names make a path, a relative
disk path without dots yields it either way, and every other one yields its last name; below a given
path it is always the last name that stands. -/
theorem keeps_all_names_or_last (p : DiskPath) :
    (ofDisk? p none = .ok none ↔ ofDiskNames? p = .ok none) ∧
    (∀ e, ofDisk? p none = .error e → ∃ e', ofDiskNames? p = .error e') ∧
    ∀ q, ofDiskNames? p = .ok (some q) →
      (p.isAbsolute = false ∧ .here ∉ p.components ∧ .up ∉ p.components →
        ofDisk? p none = .ok (some q)) ∧
      (p.isAbsolute = true ∨ .here ∈ p.components ∨ .up ∈ p.components →
        ∃ r, ofDisk? p none = .ok (some r) ∧ r.text = q.name) ∧
      ∀ base : ItemPath, ofDisk? p (some base) = some <$> base.join q.name := by
  refine ⟨ofDisk?_eq_none_iff.trans ofDiskNames?_eq_none_iff.symm, ?_, ?_⟩
  · intro e he
    cases hnames : ofDiskNames? p with
    | error e' => exact ⟨e', rfl⟩
    | ok found =>
      cases found with
      | none =>
        rw [ofDisk?_of_names_eq_nil (ofDiskNames?_eq_none_iff.1 hnames)] at he
        cases he
      | some q =>
        cases hp : p.isPlain with
        | true =>
          rw [ofDisk?_of_isPlain hp, hnames] at he
          cases he
        | false =>
          obtain ⟨r, hr, -⟩ := ofDisk?_of_not_isPlain hp hnames
          rw [hr] at he
          cases he
  · intro q hq
    refine ⟨?_, ?_, ofDisk?_below hq⟩
    · rintro ⟨hrelative, hhere, hup⟩
      have hp : p.isPlain = true := by
        rw [← Bool.not_eq_false, DiskPath.isPlain_eq_false_iff, hrelative]
        simp [hhere, hup]
      rw [ofDisk?_of_isPlain hp, hq]
    · intro h
      exact ofDisk?_of_not_isPlain (DiskPath.isPlain_eq_false_iff.2 h) hq

/-- Of the absolute path `/a/b` all names make `a/b`, while `b` alone stands for it. -/
theorem keeps_all_names_or_last_of_absolute :
    let p : DiskPath := ⟨[slashByte, 0x61, slashByte, 0x62]⟩
    ∃ q r, ofDiskNames? p = .ok (some q) ∧ q.text = "a/b" ∧
      (p.isAbsolute = true ∨ .here ∈ p.components ∨ .up ∈ p.components) ∧
      ofDisk? p none = .ok (some r) ∧ r.text = "b" ∧
      (ofDisk? p (some q)).map (Option.map text) = .ok (some "a/b/b") := by
  intro p
  have hq : ofDiskNames? p =
      .ok (some ⟨"a/b", by decide, (PathFault.of?_eq_none_iff.1 rfl).2⟩) := rfl
  obtain ⟨-, -, hall⟩ := keeps_all_names_or_last p
  obtain ⟨-, hlast, hbelow⟩ := hall _ hq
  have habsolute : p.isAbsolute = true ∨ .here ∈ p.components ∨ .up ∈ p.components := .inl rfl
  obtain ⟨r, hr, hname⟩ := hlast habsolute
  refine ⟨_, r, hq, rfl, habsolute, hr, hname, ?_⟩
  rw [hbelow]
  rfl

end ItemPath

end ArchiveUpdate
