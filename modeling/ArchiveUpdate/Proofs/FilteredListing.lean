import ArchiveUpdate.Proofs.DirectoryListing
import ArchiveUpdate.Proofs.PathsFromNames
import ArchiveUpdate.Proofs.WalkedPlaces

/-!
# Listing a directory with a filter

A filter decides on the name of each entry, and without recursion it also decides which directories
are entered, but only those directly below the listed one.  So an entry is listed if its own name is
selected, the walk gets to it, and it is not a directory where only files are wanted
(`lists_what_is_taken`).
-/

set_option autoImplicit false

namespace ArchiveUpdate

/-- A path that leads somewhere holds no NUL byte and is not too long. -/
theorem FileSystem.reach_eq_ok {fs : FileSystem} {path : DiskPath} {followLast : Bool}
    {s : FileStatus} (h : fs.reach path followLast = .ok s) :
    0 ∉ path.bytes ∧ path.bytes.length < 4096 := by
  unfold reach at h
  split at h
  · cases h
  · rename_i hnul
    split at h
    · cases h
    · split at h
      · cases h
      · rename_i hlength
        exact ⟨hnul, Nat.not_le.1 hlength⟩

namespace Listing

/-- A full walk that looks once more at each entry it meets: the entries and what is there. -/
def survey (fs : FileSystem) (follow : Bool) (dir : DiskPath) :
    Except UpdateError (List (WalkEntry × Node)) := do
  let es ← fs.walk follow dir
  es.mapM fun e => do
    let s ← entryStatus fs e
    pure (e, s.node)

/-- An entry with what the second look found there. -/
def Seen (fs : FileSystem) (e : WalkEntry) (found : WalkEntry × Node) : Prop :=
  ∃ s, entryStatus fs e = .ok s ∧ (e, s.node) = found

/-- Whether a name is text and selected. -/
def passes (pattern : Option Wildcard) (policy : FilterPolicy) (name : FileName) : Bool :=
  (Utf8.decode? name.bytes).any (selected pattern policy)

/-- With the including policy those names pass that the pattern accepts, and all of them without a
pattern; with the excluding policy those that it does not accept, and none without a pattern.  A
name that is not text never passes. -/
theorem passes_iff {pattern : Option Wildcard} {policy : FilterPolicy} {name : FileName} :
    passes pattern policy name = true ↔ ∃ text, Utf8.decode? name.bytes = some text ∧
      match policy, pattern with
      | .include, none => True
      | .include, some wildcard => wildcard.accepts text = true
      | .exclude, none => False
      | .exclude, some wildcard => wildcard.accepts text = false := by
  rw [passes, Option.any_eq_true]
  refine exists_congr fun text => and_congr_right fun _ => ?_
  cases policy <;> cases pattern <;> simp [selected, FilterPolicy.selects]

/-- Whether a listing gets to an entry: without recursion only the directories with selected names
are entered that lie directly in the listed one. -/
def reaches (pattern : Option Wildcard) (o : IndexOptions) (e : WalkEntry) : Bool :=
  o.recursive || e.depth = 1 || e.names.head?.any (passes pattern o.filterPolicy)

/-- Whether an entry is listed. -/
def takes (pattern : Option Wildcard) (o : IndexOptions) (found : WalkEntry × Node) : Bool :=
  found.1.names.getLast?.any (passes pattern o.filterPolicy) && reaches pattern o found.1 &&
    !(o.onlyFiles && found.2.isDirectory)

/-- The path inside the archive below which the entries of a directory are listed. -/
def basePath (o : IndexOptions) (filter : String) (dir : DiskPath) :
    Except UpdateError (Option ItemPath) :=
  if o.retainFolders then ItemPath.ofDiskNames? dir
  else if filter.isEmpty || dir.isPlain then ItemPath.ofDisk? dir none
  else .ok none

/-- This is the listing of an entry: its names as text below the path of the directory, and what was
found there. -/
structure Lists (base : Option ItemPath) (found : WalkEntry × Node)
    (listed : ItemPath × DiskItem) : Prop where
  place : ∃ texts, ReadAs found.1.names texts ∧
    listed.1.text = "/".intercalate (base.toList.map (·.text) ++ texts)
  item : listed.2 = .ofNode found.1.path found.2

/-- What a listing takes from an entry of the full walk. -/
def portion (fs : FileSystem) (base : Option ItemPath) (pattern : Option Wildcard)
    (o : IndexOptions) (e : WalkEntry) : Except UpdateError Listing :=
  if reaches pattern o e then share fs base pattern o e else .ok []

variable {fs : FileSystem} {dir : DiskPath} {root : DiskItem} {base : Option ItemPath}
  {pattern : Option Wildcard} {o : IndexOptions} {l : Listing}

section

variable {e : WalkEntry} {text : String}

/-- The share of an entry is its listing if its name is selected, and nothing if it is not. -/
theorem share_eq_ok_iff : share fs base pattern o e = .ok l ↔ ∃ name, entryName e = .ok name ∧
    if selected pattern o.filterPolicy name then ofEntry fs base o.onlyFiles e = .ok l
    else l = [] := by
  unfold share
  rw [bind_eq_ok_iff]
  apply exists_congr
  intro name
  split <;> simp [pure, Except.pure, eq_comm]

/-- The name of an entry is the text of the last name that leads to it. -/
theorem entryName_eq_ok_iff {name : FileName} (hlast : e.names.getLast? = some name) :
    entryName e = .ok text ↔ Utf8.decode? name.bytes = some text := by
  unfold entryName
  rw [hlast, Option.map_some, Option.getD_some, nameText_eq_ok_iff]

/-- A name with a text passes if the text is selected. -/
theorem passes_of_entryName {name : FileName} (hlast : e.names.getLast? = some name)
    (htext : entryName e = .ok text) :
    passes pattern o.filterPolicy name = selected pattern o.filterPolicy text := by
  rw [passes, (entryName_eq_ok_iff hlast).1 htext, Option.any_some]

/-- A selected entry is listed and, if it is a directory, entered. -/
theorem visit_of_selected (htext : entryName e = .ok text)
    (hselected : selected pattern o.filterPolicy text = true)
    (hentry : ofEntry fs base o.onlyFiles e = .ok l) :
    visit fs base pattern o e = .ok ⟨l, true⟩ := by
  unfold visit
  rw [htext]
  dsimp only [bind, Except.bind]
  rw [hselected, hentry]
  rfl

/-- An entry that is not selected is not listed, and without recursion it is not entered directly
below the listed directory. -/
theorem visit_of_not_selected (htext : entryName e = .ok text)
    (hselected : selected pattern o.filterPolicy text = false) :
    visit fs base pattern o e = .ok ⟨[], o.recursive || e.depth ≠ 1⟩ := by
  unfold visit
  rw [htext]
  dsimp only [bind, Except.bind]
  rw [hselected]
  rfl

end

/-- Without recursion a listing gets below a directory directly in the listed one exactly if its
name is selected. -/
theorem reaches_of_names {e : WalkEntry} {name : FileName} {more : List FileName}
    (hrec : o.recursive = false) (hnames : e.names = name :: more) (hmore : more ≠ []) :
    reaches pattern o e = passes pattern o.filterPolicy name := by
  have hdepth : e.depth ≠ 1 := by
    intro hone
    rw [WalkEntry.depth, hnames, List.length_cons] at hone
    exact hmore (List.length_eq_zero_iff.1 (by omega))
  simp only [reaches, hrec, hnames, hdepth, List.head?_cons, Option.any_some, decide_false,
    Bool.or_self, Bool.false_or]

section

variable {follow : Bool} {room : Nat} {trail : FileSystem.Trail} {met : WalkEntry}
  {name : FileName} {deeper : List WalkEntry}

/-- An entry directly in the directory that is entered has all that lies below it looked at. -/
theorem tour_of_entered {part rest : Listing} (hnames : met.names = [name])
    (hvisit : visit fs base pattern o met = .ok ⟨part, true⟩)
    (hbelow : if met.node.isDirectory then
        fs.walkBelow follow (FileSystem.noting fun e => .ok [e]) room met.path met.names
          (fs.extendTrail met.path trail) = .ok deeper
      else deeper = [])
    (hshares : gather (share fs base pattern o) deeper = .ok rest) :
    fs.tour follow (visit fs base pattern o) room trail met = .ok (part ++ rest) := by
  have hvisits : ∀ e : WalkEntry, met.names.length < e.depth →
      visit fs base pattern o e = FileSystem.noting (share fs base pattern o) e := by
    intro e he
    apply visit_eq_noting
    have hne : e.depth ≠ 1 := by
      rw [hnames, List.length_singleton] at he
      omega
    simp [hne]
  refine FileSystem.tour_eq_ok_iff.2 ⟨_, hvisit, ?_⟩
  cases hnode : met.node.isDirectory with
  | true =>
    rw [hnode, if_pos rfl] at hbelow
    rw [if_pos ⟨rfl, rfl⟩, FileSystem.walkBelow_congr fs met.path hvisits]
    exact ⟨rest, (FileSystem.walkBelow_noting ..).2 ⟨deeper, hbelow, hshares⟩, rfl⟩
  | false =>
    rw [hnode, if_neg nofun] at hbelow
    rw [hbelow] at hshares
    cases hshares
    rw [if_neg nofun, List.append_nil]

/-- Without recursion, what is listed of an entry directly in the directory and of what the full
walk meets below it are the portions of all that.  The directory is entered exactly if its name is
selected, and otherwise there is no portion of what lies below. -/
theorem tour_of_portions {es : List WalkEntry} (hrec : o.recursive = false)
    (hnames : met.names = [name])
    (hmeets : fs.explore follow (fun e => .ok [e]) room trail met = .ok es)
    (hportions : gather (portion fs base pattern o) es = .ok l) :
    fs.tour follow (visit fs base pattern o) room trail met = .ok l := by
  obtain ⟨below, rfl, hbelow⟩ := FileSystem.explore_all_eq_ok_iff.1 hmeets
  obtain ⟨part, rest, hpart, hrest, rfl⟩ := gather_cons_eq_ok_iff.1 hportions
  have hdepth : met.depth = 1 := by
    rw [WalkEntry.depth, hnames, List.length_singleton]
  have hshare : share fs base pattern o met = .ok part := by
    simpa [portion, reaches, hdepth] using hpart
  obtain ⟨text, htext, hentry⟩ := share_eq_ok_iff.1 hshare
  have hpasses : passes pattern o.filterPolicy name = selected pattern o.filterPolicy text :=
    passes_of_entryName (by rw [hnames, List.getLast?_singleton]) htext
  have hreaches : ∀ e ∈ below, reaches pattern o e = selected pattern o.filterPolicy text := by
    intro e he
    split at hbelow
    · obtain ⟨more, hmore, hmoreNames, -⟩ := FileSystem.liesBelow_of_walkBelow hbelow e he
      rw [← hpasses]
      apply reaches_of_names hrec _ hmore
      rw [hmoreNames, hnames, List.singleton_append]
    · rw [hbelow] at he
      cases he
  cases hselected : selected pattern o.filterPolicy text with
  | true =>
    rw [hselected, if_pos rfl] at hentry
    refine tour_of_entered hnames (visit_of_selected htext hselected hentry) hbelow ?_
    rw [← hrest]
    apply gather_congr
    intro e he
    rw [portion, hreaches e he, hselected, if_pos rfl]
  | false =>
    rw [hselected, if_neg Bool.false_ne_true] at hentry
    have hvisit : visit fs base pattern o met = .ok ⟨[], false⟩ := by
      rw [visit_of_not_selected htext hselected, hrec, hdepth]
      rfl
    have hnothing : rest = [] := by
      apply List.eq_nil_iff_forall_not_mem.2
      intro listed hlisted
      obtain ⟨e, he, found, hfound, hlisted⟩ := mem_of_gather hrest hlisted
      rw [portion, hreaches e he, hselected, if_neg Bool.false_ne_true] at hfound
      cases hfound
      cases hlisted
    rw [hentry, hnothing]
    exact FileSystem.tour_eq_ok_iff.2 ⟨_, hvisit, rfl⟩

end

/-- A listing takes its portion of each entry of the full walk. -/
theorem below_of_portions {es : List WalkEntry}
    (hwalk : fs.walk o.symlinkPolicy.follows dir = .ok es)
    (hportions : gather (portion fs base pattern o) es = .ok l) :
    below fs dir base pattern o = .ok l := by
  cases hrec : o.recursive with
  | true =>
    refine (below_eq_ok_iff hrec).2 ⟨es, hwalk, ?_⟩
    have hall : portion fs base pattern o = share fs base pattern o := by
      funext e
      simp only [portion, reaches, hrec, Bool.true_or, if_true]
    rwa [hall] at hportions
  | false =>
    show fs.walkBelow _ (visit fs base pattern o) (4095 + 1) dir [] _ = _
    rw [FileSystem.walkBelow_visit]
    have hwalk : fs.walkBelow _ (FileSystem.noting fun e => .ok [e]) (4095 + 1) dir [] _ = _ :=
      hwalk
    rw [FileSystem.walkBelow_succ] at hwalk
    obtain ⟨entries, hentries, hwalk⟩ := bind_eq_ok_iff.1 hwalk
    refine bind_eq_ok_iff.2 ⟨entries, hentries, gather_of_rounds ?_ hwalk hportions⟩
    rintro ⟨name, node⟩ es l hmeets hportions
    obtain ⟨met, hmet, hmeets⟩ := bind_eq_ok_iff.1 hmeets
    have hnames : met.names = [name] := (FileSystem.place_of_meet hmet).2
    exact bind_eq_ok_iff.2 ⟨met, hmet, tour_of_portions hrec hnames hmeets hportions⟩

section

variable {e : WalkEntry} {s : FileStatus} {texts : List String}

/-- What can be looked at again has a path that is not too long. -/
theorem length_of_entryStatus (h : entryStatus fs e = .ok s) : e.path.bytes.length < 4096 := by
  unfold entryStatus FileSystem.onWalk at h
  split at h
  · rename_i found hfound
    split at hfound <;> exact (FileSystem.reach_eq_ok hfound).2
  · cases h

/-- Where only files are wanted, nothing is listed of a directory itself. -/
theorem ofEntry_of_folder {onlyFiles : Bool} (hstatus : entryStatus fs e = .ok s)
    (hfolder : onlyFiles = true ∧ s.node.isDirectory = true) :
    ofEntry fs base onlyFiles e = .ok [] := by
  unfold ofEntry
  rw [hstatus]
  dsimp only [bind, Except.bind]
  rw [if_pos hfolder]
  rfl

/-- The names of an entry make its path inside the archive, as they are not too long. -/
theorem exists_ofEntry {onlyFiles : Bool} (hstatus : entryStatus fs e = .ok s)
    (hread : ReadAs e.names texts) (hne : e.names ≠ [])
    (hsum : (e.names.map (·.bytes.length)).sum ≤ 4096)
    (hbase : ∀ path, base = some path → path.text.utf8ByteSize ≤ 8192)
    (hwanted : ¬(onlyFiles = true ∧ s.node.isDirectory = true)) :
    ∃ path : ItemPath, ofEntry fs base onlyFiles e = .ok [(path, .ofNode e.path s.node)] ∧
      path.text = "/".intercalate (base.toList.map (·.text) ++ texts) := by
  obtain ⟨relative, hrelative⟩ := ItemPath.exists_of_readAs hread hne (by omega)
  have hfound : ItemPath.ofDiskNames? (relativePath e.names) = .ok (some relative) :=
    (ofDiskNames?_relativePath hne).2 ⟨relative, texts, hread, hrelative, rfl⟩
  unfold ofEntry
  rw [hstatus]
  dsimp only [bind, Except.bind]
  rw [if_neg hwanted, hfound]
  cases base with
  | none => exact ⟨relative, rfl, hrelative⟩
  | some base =>
    have hshort := hread.size_intercalate_le
    have hsize : base.text.utf8ByteSize + relative.text.utf8ByteSize < 32768 := by
      have hlong := hbase base rfl
      rw [hrelative]
      omega
    obtain ⟨path, hjoin⟩ := ItemPath.exists_join hsize
    refine ⟨path, ?_, text_of_join (hread.texts_ne_nil hne) hrelative hjoin⟩
    dsimp only
    rw [hjoin]
    rfl

/-- An entry that can be looked at and read yields its listing if it is taken, else nothing. -/
theorem exists_portion (hstatus : entryStatus fs e = .ok s) (hplace : e.LiesBelow dir [])
    (hnames : ∀ name ∈ e.names, ∃ text, Utf8.decode? name.bytes = some text)
    (hbase : ∀ path, base = some path → path.text.utf8ByteSize ≤ 8192) :
    ∃ part, portion fs base pattern o e = .ok part ∧
      List.Forall₂ (Lists base) ([(e, s.node)].filter (takes pattern o)) part := by
  obtain ⟨texts, hread⟩ := exists_readAs_iff.2 hnames
  have hne : e.names ≠ [] := by
    obtain ⟨more, hmore, hmoreNames, -⟩ := hplace
    rwa [hmoreNames]
  obtain ⟨name, hlast⟩ : ∃ name, e.names.getLast? = some name :=
    ⟨_, List.getLast?_eq_some_getLast hne⟩
  obtain ⟨text, htext⟩ := hnames name (List.mem_of_getLast? hlast)
  have hpasses : e.names.getLast?.any (passes pattern o.filterPolicy) =
      selected pattern o.filterPolicy text := by
    rw [hlast, Option.any_some, passes, htext, Option.any_some]
  have hname : entryName e = .ok text := (entryName_eq_ok_iff hlast).2 htext
  have hsum := hplace.sum_names_le.trans (length_of_entryStatus hstatus).le
  cases hreaches : reaches pattern o e with
  | false =>
    refine ⟨[], by rw [portion, hreaches, if_neg nofun], ?_⟩
    simp [takes, hreaches]
  | true =>
    rw [portion, hreaches, if_pos rfl]
    cases hselected : selected pattern o.filterPolicy text with
    | false =>
      refine ⟨[], share_eq_ok_iff.2 ⟨text, hname, by rw [hselected, if_neg nofun]⟩, ?_⟩
      simp [takes, hpasses, hselected]
    | true =>
      by_cases hfolder : o.onlyFiles = true ∧ s.node.isDirectory = true
      · refine ⟨[], share_eq_ok_iff.2 ⟨text, hname, ?_⟩, ?_⟩
        · rw [hselected, if_pos rfl]
          exact ofEntry_of_folder hstatus hfolder
        · simp [takes, hfolder.1, hfolder.2]
      · obtain ⟨path, hentry, hpath⟩ := exists_ofEntry hstatus hread hne hsum hbase hfolder
        refine ⟨[(path, .ofNode e.path s.node)], share_eq_ok_iff.2 ⟨text, hname, ?_⟩, ?_⟩
        · rw [hselected, if_pos rfl]
          exact hentry
        · have hwanted : (o.onlyFiles && s.node.isDirectory) = false := by
            rw [← Bool.not_eq_true, Bool.and_eq_true]
            exact hfolder
          have htaken : takes pattern o (e, s.node) = true := by
            simp only [takes, hpasses, hselected, hreaches, hwanted]
            rfl
          rw [List.filter_cons_of_pos htaken]
          exact .cons ⟨⟨texts, hread, hpath⟩, rfl⟩ .nil

end

section

variable {found : List (WalkEntry × Node)}

/-- A survey has looked at each entry of the full walk. -/
theorem survey_eq_ok_iff {follow : Bool} : survey fs follow dir = .ok found ↔
    ∃ es, fs.walk follow dir = .ok es ∧ List.Forall₂ (Seen fs) es found := by
  unfold survey
  rw [bind_eq_ok_iff]
  apply exists_congr
  intro es
  rw [mapM_eq_ok_iff]
  simp only [bind_eq_ok_iff, pure, Except.pure, Except.ok.injEq]
  rfl

/-- A survey is about the entries of the walk, in their order. -/
theorem survey_entries {es : List WalkEntry} (h : List.Forall₂ (Seen fs) es found) :
    es = found.map (·.1) := by
  rw [← List.forall₂_eq_eq_eq, List.forall₂_map_right_iff]
  apply h.imp
  rintro e _ ⟨s, -, rfl⟩
  rfl

/-- The portions of surveyed entries are the listings of those that are taken. -/
theorem exists_portions {es : List WalkEntry}
    (hsurvey : List.Forall₂ (Seen fs) es found) (hplaces : ∀ e ∈ es, e.LiesBelow dir [])
    (hnames : ∀ e ∈ es, ∀ name ∈ e.names, ∃ text, Utf8.decode? name.bytes = some text)
    (hbase : ∀ path, base = some path → path.text.utf8ByteSize ≤ 8192) :
    ∃ l, gather (portion fs base pattern o) es = .ok l ∧
      List.Forall₂ (Lists base) (found.filter (takes pattern o)) l := by
  induction hsurvey with
  | nil => exact ⟨[], rfl, .nil⟩
  | @cons e seen es found hseen _ ih =>
    obtain ⟨s, hstatus, rfl⟩ := hseen
    rw [List.forall_mem_cons] at hplaces hnames
    obtain ⟨part, hpart, hlisted⟩ := exists_portion hstatus hplaces.1 hnames.1 hbase
    obtain ⟨rest, hrest, hothers⟩ := ih hplaces.2 hnames.2
    refine ⟨part ++ rest, gather_cons_eq_ok_iff.2 ⟨part, rest, hpart, hrest, rfl⟩, ?_⟩
    rw [← List.singleton_append, List.filter_append]
    exact List.rel_append hlisted hothers

/-- The path of a listing is that of the directory and the names as text. -/
theorem Lists.segments {seen : WalkEntry × Node} {listed : ItemPath × DiskItem}
    (h : Lists base seen listed) : ∃ texts, ReadAs seen.1.names texts ∧
      listed.1.segments = base.toList.flatMap (·.segments) ++ texts.map String.toList := by
  obtain ⟨⟨texts, hread, hpath⟩, -⟩ := h
  refine ⟨texts, hread, ?_⟩
  have hempty : seen.1.names = [] → texts = [] := by
    intro hnil
    rw [hnil] at hread
    cases hread
    rfl
  rw [ItemPath.segments, hpath]
  by_cases hne : seen.1.names = []
  · rw [hempty hne] at hpath ⊢
    cases base with
    | none => exact absurd hpath (ItemPath.text_ne_empty _)
    | some base =>
      show Segments.split '/' ("/".intercalate [base.text]).toList = _
      rw [String.intercalate_singleton]
      simp [ItemPath.segments]
  · cases base with
    | none => exact hread.split_intercalate hne
    | some base =>
      show Segments.split '/' ("/".intercalate (base.text :: texts)).toList = _
      rw [String.intercalate_cons_of_ne_nil (hread.texts_ne_nil hne), ItemPath.split_slash,
        hread.split_intercalate hne]
      simp [ItemPath.segments]

/-- Entries that are listed under the same path have the same names. -/
theorem Lists.names_eq {seen seen' : WalkEntry × Node} {listed listed' : ItemPath × DiskItem}
    (h : Lists base seen listed) (h' : Lists base seen' listed') (hpath : listed.1 = listed'.1) :
    seen.1.names = seen'.1.names := by
  obtain ⟨texts, hread, hsegments⟩ := h.segments
  obtain ⟨texts', hread', hsegments'⟩ := h'.segments
  rw [hpath, hsegments'] at hsegments
  have htexts : texts' = texts :=
    List.map_injective_iff.2 (fun _ _ => String.toList_injective)
      (List.append_cancel_left hsegments)
  rw [htexts] at hread'
  exact hread.names_unique hread'

/-- The texts that the names read as decide the path of what is listed. -/
theorem Lists.text_eq {seen : WalkEntry × Node} {listed : ItemPath × DiskItem}
    {texts : List String} (h : Lists base seen listed) (hread : ReadAs seen.1.names texts) :
    listed.1.text = "/".intercalate (base.toList.map (·.text) ++ texts) := by
  obtain ⟨⟨texts', hread', hpath⟩, -⟩ := h
  have hunique : Relator.RightUnique fun (name : FileName) (text : String) =>
      Utf8.decode? name.bytes = some text := by
    intro name text text' htext htext'
    exact Option.some.inj (htext.symm.trans htext')
  rw [hpath, List.right_unique_forall₂' hunique hread hread']

/-- What is listed of an entry with names does not have the path of the directory. -/
theorem Lists.ne_base {seen : WalkEntry × Node} {listed : ItemPath × DiskItem} {path : ItemPath}
    (h : Lists (some path) seen listed) (hne : seen.1.names ≠ []) : path ≠ listed.1 := by
  rintro rfl
  obtain ⟨texts, hread, hsegments⟩ := h.segments
  rw [Option.toList_some, List.flatMap_cons, List.flatMap_nil, List.append_nil] at hsegments
  have hnil := List.self_eq_append_right.1 hsegments
  exact hread.texts_ne_nil hne (List.map_eq_nil_iff.1 hnil)

end

/-- No two listings of different entries have the same path, and none has that of the directory. -/
theorem nodup_paths {found : List (WalkEntry × Node)} {own : Listing}
    (hown : own = [] ∨ own = base.toList.map (·, root))
    (hdistinct : found.Pairwise fun seen seen' => seen.1.names ≠ seen'.1.names)
    (hnames : ∀ seen ∈ found, seen.1.names ≠ [])
    (hlisted : List.Forall₂ (Lists base) found l) : ((own ++ l).map (·.1)).Nodup := by
  have hbelow : (l.map (·.1)).Nodup := by
    rw [List.Nodup, List.pairwise_map]
    apply pairwise_of_forall₂ hlisted hdistinct
    intro seen seen' listed listed' h h' hne hpath
    exact hne (h.names_eq h' hpath)
  rcases hown with rfl | rfl
  · exact hbelow
  · cases base with
    | none => exact hbelow
    | some path =>
      refine List.nodup_cons.2 ⟨?_, hbelow⟩
      intro hmem
      obtain ⟨listed, hmem, hpath⟩ := List.mem_map.1 hmem
      obtain ⟨seen, hseen, hlists⟩ := exists_of_forall₂ hlisted hmem
      exact hlists.ne_base (hnames seen hseen) hpath.symm

/-- A directory is listed if it can be found, its filter read, its path derived and what lies below
it listed. -/
theorem ofDirectory_of_parts {filter : String}
    (hroot : DiskItem.find fs o.symlinkPolicy dir = .ok root) (hdir : root.isDir = true)
    (hpattern : readFilter filter = .ok pattern) (hbase : basePath o filter dir = .ok base)
    (hbelow : below fs dir base pattern o = .ok l) :
    ofDirectory fs dir filter o = .ok
      ((if filter.isEmpty && !o.onlyFiles then base.toList.map (·, root) else []) ++ l) := by
  have hnone : pattern.isNone = filter.isEmpty := by
    unfold readFilter at hpattern
    split at hpattern
    · rename_i hempty
      cases hpattern
      rw [hempty, Option.isNone_none]
    · rename_i hfilter
      obtain ⟨wildcard, -, rfl⟩ := map_eq_ok_iff.1 hpattern
      rw [Option.isNone_some, Bool.eq_false_iff.2 hfilter]
  unfold ofDirectory
  rw [hroot]
  dsimp only [onDisk, bind, Except.bind]
  rw [hdir, hpattern]
  dsimp only [bind, Except.bind]
  rw [hnone]
  unfold basePath at hbase
  split at hbase
  · rename_i hretain
    rw [hretain, hbase]
    dsimp only
    rw [hbelow]
    rfl
  · rename_i hretain
    rw [Bool.eq_false_iff.2 hretain]
    split at hbase
    · rename_i hplain
      rw [hplain, hbase]
      dsimp only
      rw [hbelow]
      rfl
    · rename_i hplain
      rw [Bool.eq_false_iff.2 hplain]
      cases hbase
      dsimp only [pure, Except.pure]
      rw [hbelow]
      rfl

/-- Of a directory whose full walk meets no failure and no name that is not text, exactly those
entries are listed that the filter and the options take, in the order of the walk: each under its
names below the path of the directory, if that has one, and no two under the same path.  The
directory itself comes first if there is no filter, directories are wanted and it has a path. -/
theorem lists_what_is_taken {filter : String} {found : List (WalkEntry × Node)}
    (hroot : DiskItem.find fs o.symlinkPolicy dir = .ok root) (hdir : root.isDir = true)
    (hpattern : readFilter filter = .ok pattern)
    (hsurvey : survey fs o.symlinkPolicy.follows dir = .ok found)
    (hnames : ∀ seen ∈ found, ∀ name ∈ seen.1.names, ∃ text, Utf8.decode? name.bytes = some text)
    (hown : ∀ bytes, .name bytes ∈ dir.components → ∃ text, Utf8.decode? bytes = some text) :
    ∃ base l, basePath o filter dir = .ok base ∧
      List.Forall₂ (Lists base) (found.filter (takes pattern o)) l ∧
      let listing :=
        (if filter.isEmpty && !o.onlyFiles then base.toList.map (·, root) else []) ++ l
      ofDirectory fs dir filter o = .ok listing ∧ (listing.map (·.1)).Nodup := by
  obtain ⟨s, hreach, -⟩ := map_eq_ok_iff.1 hroot
  obtain ⟨hnul, hlength⟩ := FileSystem.reach_eq_ok hreach
  obtain ⟨es, hwalk, hseen⟩ := survey_eq_ok_iff.1 hsurvey
  have hplaces := FileSystem.liesBelow_of_walkBelow hwalk
  obtain ⟨base, hbase, hshort⟩ : ∃ base, basePath o filter dir = .ok base ∧
      ∀ path, base = some path → path.text.utf8ByteSize ≤ 8192 := by
    unfold basePath
    split
    · exact ItemPath.exists_ofDiskNames? hnul hlength.le hown
    · split
      · exact ItemPath.exists_ofDisk? hnul hlength.le hown
      · exact ⟨none, rfl, nofun⟩
  have hentries := survey_entries hseen
  have hread : ∀ e ∈ es, ∀ name ∈ e.names, ∃ text, Utf8.decode? name.bytes = some text := by
    intro e he
    rw [hentries] at he
    obtain ⟨seen, hmem, rfl⟩ := List.mem_map.1 he
    exact hnames seen hmem
  obtain ⟨l, hportions, hlisted⟩ : ∃ l, gather (portion fs base pattern o) es = .ok l ∧
      List.Forall₂ (Lists base) (found.filter (takes pattern o)) l :=
    exists_portions hseen hplaces hread hshort
  have hbelow := below_of_portions hwalk hportions
  have hdistinct : found.Pairwise fun seen seen' => seen.1.names ≠ seen'.1.names := by
    have hes := FileSystem.distinct_of_walk hwalk
    rwa [hentries, List.pairwise_map] at hes
  have hne : ∀ seen ∈ found.filter (takes pattern o), seen.1.names ≠ [] := by
    intro seen hmem
    apply FileSystem.names_ne_nil_of_walk hwalk
    rw [hentries]
    exact List.mem_map_of_mem (List.mem_filter.1 hmem).1
  refine ⟨base, l, hbase, hlisted, ?_⟩
  intro listing
  refine ⟨ofDirectory_of_parts hroot hdir hpattern hbase hbelow, ?_⟩
  have hself : (if filter.isEmpty && !o.onlyFiles then base.toList.map (·, root) else []) = [] ∨
      (if filter.isEmpty && !o.onlyFiles then base.toList.map (·, root) else []) =
        base.toList.map (·, root) := by
    split
    · exact .inr rfl
    · exact .inl rfl
  exact nodup_paths hself (hdistinct.sublist List.filter_sublist) hne hlisted

section

open Addition

/-- The entries of the directory `d` that pass an excluding filter of an `f` and a star without
recursion: the directory `a`, which is entered, and in it the directory `b` with its file.  The file
`f` in `a` does not pass, nor does the directory `f`, so that the file in it is not reached. -/
theorem lists_what_is_taken_by_excluding_star :
    ∃ l : Listing, ofDirectory Nested.host.files OneFile.dir "f*"
        { recursive := false, filterPolicy := .exclude } = .ok l ∧
      l.map (·.1.text) = ["d/a", "d/a/b", "d/a/b/g"] ∧ (l.map (·.1)).Nodup := by
  have hsurvey : survey Nested.host.files true OneFile.dir = .ok Nested.found := by cbv
  have hnames : ∀ seen ∈ Nested.found, ∀ name ∈ seen.1.names,
      ∃ text, Utf8.decode? name.bytes = some text := by
    have hletters : ∀ seen ∈ Nested.found, ∀ name ∈ seen.1.names,
        (Utf8.decode? name.bytes).isSome := by decide +kernel
    intro seen hseen name hname
    exact Option.isSome_iff_exists.1 (hletters seen hseen name hname)
  have hown : ∀ bytes, .name bytes ∈ OneFile.dir.components →
      ∃ text, Utf8.decode? bytes = some text := by
    intro bytes hbytes
    cases List.mem_singleton.1 hbytes
    exact ⟨"d", by decide⟩
  have hpattern : readFilter "f*" = .ok (some ⟨[.char 'f', .run]⟩) := by cbv
  obtain ⟨base, l, hbase, hlisted, hlist, hdistinct⟩ :=
    lists_what_is_taken (o := { recursive := false, filterPolicy := .exclude }) rfl rfl hpattern
      hsurvey hnames hown
  obtain rfl : some OneFile.folder.1 = base := Except.ok.inj hbase
  have htaken : Nested.found.filter (takes (some ⟨[.char 'f', .run]⟩)
      { recursive := false, filterPolicy := .exclude }) =
        [Nested.met [Nested.a] FileTree.plainDirectory,
          Nested.met [Nested.a, Nested.b] FileTree.plainDirectory,
          Nested.met [Nested.a, Nested.b, Nested.g] OneFile.node] := by cbv
  have ha : Utf8.decode? Nested.a.bytes = some "a" := by decide
  have hb : Utf8.decode? Nested.b.bytes = some "b" := by decide
  have hg : Utf8.decode? Nested.g.bytes = some "g" := by decide
  rw [htaken] at hlisted
  rcases hlisted with _ | ⟨hfirst, _ | ⟨hsecond, _ | ⟨hthird, ⟨⟩⟩⟩⟩
  refine ⟨_, hlist, ?_, hdistinct⟩
  have hfirst := hfirst.text_eq (.cons ha .nil)
  have hsecond := hsecond.text_eq (.cons ha (.cons hb .nil))
  have hthird := hthird.text_eq (.cons ha (.cons hb (.cons hg .nil)))
  have hfilter : "f*".isEmpty = false := by decide
  simp only [hfilter, Bool.false_and, Bool.false_eq_true, if_false, List.nil_append,
    List.map_cons, List.map_nil, hfirst, hsecond, hthird]
  decide

end

end Listing

end ArchiveUpdate
