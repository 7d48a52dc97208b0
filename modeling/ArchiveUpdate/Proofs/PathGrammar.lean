import ArchiveUpdate.Proofs.DerivedPaths

/-!
# The grammar of paths inside an archive

The reader of paths tests a text for one fault after another and cuts it at its slashes.  What it
accepts can be said without any cutting: a text of at most 32768 bytes that `Spells` one or more
admissible names, with a slash between neighbours (`exists_parse_iff`).  The text spells no other
names than those that the path holds (`spells_text_iff`).  A path made otherwise than by reading a
text follows the same grammar, so also the parent, whose text is what stands before the last slash
and is not tested again (`parent?_of_cut`).
-/

set_option autoImplicit false

namespace ArchiveUpdate

/-- The text consists of these names, one at least and each admissible, with a slash between
neighbours. -/
structure Spells (names : List String) (text : String) : Prop where
  ne_nil : names ≠ []
  isSegment : ∀ name ∈ names, IsSegment name.toList
  text_eq : text = "/".intercalate names

/-- The texts of paths inside an archive. -/
def IsPathText (text : String) : Prop :=
  text.utf8ByteSize ≤ 32768 ∧ ∃ names, Spells names text

namespace Spells

variable {names : List String} {text : String}

/-- Between the slashes of a text that spells names are these names. -/
theorem split (h : Spells names text) :
    Segments.split '/' text.toList = names.map String.toList := by
  rw [h.text_eq]
  exact split_intercalate h.ne_nil fun name hname => (h.isSegment name hname).slash

/-- A text without an inadmissible piece spells its pieces. -/
theorem of_split (h : ∀ segment ∈ Segments.split '/' text.toList, IsSegment segment) :
    Spells ((Segments.split '/' text.toList).map String.ofList) text := by
  have hpieces : ((Segments.split '/' text.toList).map String.ofList).map String.toList =
      Segments.split '/' text.toList := by
    rw [List.map_map]
    exact List.map_id'' (fun _ => String.toList_ofList) _
  refine ⟨?_, ?_, ?_⟩
  · rw [Ne, List.map_eq_nil_iff]
    exact Segments.split_ne_nil _ _
  · intro name hname
    obtain ⟨segment, hsegment, rfl⟩ := List.mem_map.1 hname
    rw [String.toList_ofList]
    exact h segment hsegment
  · apply String.toList_inj.1
    rw [String.toList_intercalate, hpieces]
    show _ = ['/'].intercalate _
    rw [← Segments.join_eq_intercalate, Segments.join_split]

end Spells

namespace ItemPath

variable {p q : ItemPath} {text front last : String}

/-- The text of a path is of the form of a path. -/
theorem isPathText (p : ItemPath) : IsPathText p.text :=
  ⟨p.size_le, _, .of_split p.segments_ok⟩

/-- A text is read as a path exactly if it follows the grammar. -/
theorem exists_parse_iff : (∃ p, parse text = .ok p) ↔ IsPathText text := by
  constructor
  · rintro ⟨p, hp⟩
    rw [← parse_eq_ok_iff.1 hp]
    exact p.isPathText
  · rintro ⟨hsize, names, hspells⟩
    have hsegments : ∀ segment ∈ Segments.split '/' text.toList, IsSegment segment := by
      rw [hspells.split]
      intro segment hsegment
      obtain ⟨name, hname, rfl⟩ := List.mem_map.1 hsegment
      exact hspells.isSegment name hname
    exact ⟨⟨text, hsize, hsegments⟩, parse_eq_ok_iff.2 rfl⟩

/-- The text of a path spells the names that the path holds and no others. -/
theorem spells_text_iff {names : List String} :
    Spells names p.text ↔ names.map String.toList = p.segments := by
  constructor
  · intro h
    exact h.split.symm
  · intro h
    have hnames : names = p.segments.map String.ofList := by
      rw [← h, List.map_map]
      exact (List.map_id'' (fun _ => String.ofList_toList) names).symm
    rw [hnames]
    exact .of_split p.segments_ok

/-- A text with a fault is refused with what is said about this fault. -/
theorem parse_of_fault {fault : PathFault} (h : PathFault.of? text = some fault) :
    parse text = .error (.invalidItemPath (fault.message text)) := by
  unfold parse
  split
  · rename_i fault' h'
    rw [h] at h'
    cases h'
    rfl
  · rename_i h'
    rw [h] at h'
    cases h'

/-- A text that is handed over is read as one that is lent. -/
theorem ofOwnedText_eq (text : String) : ofOwnedText text = parse text := by
  unfold ofOwnedText
  split
  · rename_i e h
    unfold validate at h
    split at h
    · rename_i fault hfault
      cases h
      exact (parse_of_fault hfault).symm
    · cases h
  · exact (parse_eq_ok_iff.2 rfl).symm

/-- A path is told by its names. -/
theorem ext_segments (h : p.segments = q.segments) : p = q := by
  have htext : p.text = q.text := by
    rw [← String.toList_inj, ← p.join_segments, ← q.join_segments, h]
  have hparse := parse_text p
  rw [htext] at hparse
  exact eq_of_parse_text hparse

/-- The parent of a path has all its segments but the last. -/
theorem parent?_eq_some_iff : p.parent? = some q ↔ q.segments = p.segments.dropLast := by
  have hmade : ∀ r, p.parent? = some r → r.segments = p.segments.dropLast := by
    intro r hr
    unfold parent? at hr
    split at hr
    · cases hr
    · rename_i hne
      cases hr
      rw [segments, String.toList_ofList]
      apply Segments.split_join hne
      intro segment hsegment
      exact (p.segments_ok segment (List.dropLast_subset _ hsegment)).slash
  refine ⟨hmade q, fun h => ?_⟩
  have hne : p.segments.dropLast ≠ [] := by
    rw [← h]
    exact q.segments_ne_nil
  obtain ⟨r, hr⟩ : ∃ r, p.parent? = some r := ⟨_, dif_neg hne⟩
  rw [hr, ext_segments ((hmade r hr).trans h.symm)]

/-- The text of a path is that of its parent, a slash and the last name. -/
theorem text_of_parent? (h : p.parent? = some q) : p.text = q.text ++ "/" ++ p.name := by
  rw [← String.toList_inj, ← p.join_segments, ← p.dropLast_concat_name, ← parent?_eq_some_iff.1 h,
    Segments.join_concat q.segments_ne_nil, q.join_segments, String.toList_append,
    String.toList_append, List.append_assoc]
  rfl

/-- Where a text is cut at its last slash, the front has all segments but the last. -/
theorem segments_of_cut (h : p.text = front ++ "/" ++ last) (hlast : '/' ∉ last.toList) :
    p.segments = Segments.split '/' front.toList ++ [last.toList] := by
  rw [segments, h, split_slash, Segments.split_of_not_mem hlast]

/-- What stands before the last slash of a path is the text of its parent. -/
theorem parent?_of_cut (h : p.text = front ++ "/" ++ last) (hlast : '/' ∉ last.toList) :
    ∃ q, p.parent? = some q ∧ q.text = front := by
  have hcut := segments_of_cut h hlast
  have hne : p.segments.dropLast ≠ [] := by
    rw [hcut, List.dropLast_concat]
    exact Segments.split_ne_nil _ _
  refine ⟨_, dif_neg hne, ?_⟩
  show String.ofList (Segments.join '/' p.segments.dropLast) = front
  rw [hcut, List.dropLast_concat, Segments.join_split, String.ofList_toList]

/-- A text is read as a path exactly if it is not too long and spells admissible names; the path has
this very text, and its names are the only ones that the text spells.  The conversions of texts do
the same as the reader.  Paths that are made otherwise have texts of this kind too: two texts
joined, what stands before the last slash of a path, the names of a path on disk or the last of
them, and whatever a call gives the items that it adds. -/
theorem texts_spell_names :
    (∀ text, (∃ p, parse text = .ok p) ↔ IsPathText text) ∧
    (∀ text p, parse text = .ok p → p.text = text ∧
      ∀ names, Spells names text ↔ names.map String.toList = p.segments) ∧
    (∀ text, ofLentText text = parse text ∧ ofOwnedText text = parse text) ∧
    (∀ (p q : ItemPath) (below : String), p.join below = .ok q →
      q.text = p.text ++ "/" ++ below ∧ IsPathText q.text) ∧
    (∀ (p : ItemPath) (front last : String), p.text = front ++ "/" ++ last →
      '/' ∉ last.toList → IsPathText front ∧ ∃ q, p.parent? = some q ∧ q.text = front) ∧
    (∀ (p q : ItemPath), p.parent? = some q → IsPathText q.text ∧
      ∃ last, '/' ∉ last.toList ∧ p.text = q.text ++ "/" ++ last) ∧
    (∀ (path : DiskPath) (base : Option ItemPath) (q : ItemPath),
      ofDisk? path base = .ok (some q) → IsPathText q.text) ∧
    (∀ (path : DiskPath) (q : ItemPath), ofDiskNames? path = .ok (some q) → IsPathText q.text ∧
      ∃ names, Spells names q.text ∧
        List.Forall₂ (fun bytes name => Utf8.decode? bytes = some name) path.names names) ∧
    ∀ (addition : Addition) (o : IndexOptions) (h : Host) (new : List NewItem),
      (addition.items o h).1 = .ok new → ∀ item ∈ new, IsPathText item.path.text := by
  refine ⟨?_, ?_, ?_, ?_, ?_, ?_, ?_, ?_, ?_⟩
  · intro text
    exact exists_parse_iff
  · intro text p hp
    obtain rfl := parse_eq_ok_iff.1 hp
    exact ⟨rfl, fun names => spells_text_iff⟩
  · intro text
    exact ⟨rfl, ofOwnedText_eq text⟩
  · intro p q below h
    exact ⟨parse_eq_ok_iff.1 h, q.isPathText⟩
  · intro p front last h hlast
    obtain ⟨q, hq, hfront⟩ := parent?_of_cut h hlast
    exact ⟨hfront ▸ q.isPathText, q, hq, hfront⟩
  · intro p q h
    exact ⟨q.isPathText, p.name, p.isSegment_name.slash, text_of_parent? h⟩
  · intro path base q _
    exact q.isPathText
  · intro path q h
    obtain ⟨names, hread, hsegments⟩ := segments_of_ofDiskNames? h
    exact ⟨q.isPathText, names, spells_text_iff.2 hsegments.symm, hread⟩
  · intro addition o h new _ item _
    exact item.path.isPathText

/-- The text `docs/é` spells two names, and the parent of the path read from it is `docs`; a text
with an empty piece spells no names. -/
theorem texts_spell_names_of_docs :
    ∃ p, parse "docs/é" = .ok p ∧ Spells ["docs", "é"] "docs/é" ∧
      (∃ q, p.parent? = some q ∧ q.text = "docs") ∧ IsPathText "docs" ∧
      ¬ IsPathText "docs//é" := by
  obtain ⟨hread, hnames, -, -, hcut, -⟩ := texts_spell_names
  have hp : parse "docs/é" =
      .ok ⟨"docs/é", by decide, (PathFault.of?_eq_none_iff.1 rfl).2⟩ := rfl
  obtain ⟨hdocs, hparent⟩ := hcut ⟨"docs/é", _, _⟩ "docs" "é" rfl (by decide)
  refine ⟨_, hp, ((hnames _ _ hp).2 ["docs", "é"]).2 rfl, hparent, hdocs, ?_⟩
  intro hempty
  obtain ⟨p, hp⟩ := (hread "docs//é").2 hempty
  have herror : parse "docs//é" = .error (.invalidItemPath "empty segment in 'docs//é'") := rfl
  rw [herror] at hp
  cases hp

end ItemPath

end ArchiveUpdate
