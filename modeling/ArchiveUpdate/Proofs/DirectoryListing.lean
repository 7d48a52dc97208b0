import ArchiveUpdate.Addition
import ArchiveUpdate.Proofs.EntryPaths
import ArchiveUpdate.Proofs.WalkedEntries
import Mathlib

/-!
# Listing a directory without a filter

A listing that recurses can be told in two steps: walk through everything below the directory, then
take what each entry contributes (`below_eq_ok_iff`).  The two calls that list a whole directory do
the same (`whole`) but for the filter policy: a call for paths always includes what it meets
(`ofPath_eq_whole`), while a call for a directory keeps the policy it was given, which decides even
where there is no filter (`ofDirectory_eq_whole`).
-/

set_option autoImplicit false

namespace ArchiveUpdate

namespace Listing

/-- A walked entry contributes nothing if it is a directory and only files are wanted, and otherwise
one item, below the path of the walked directory under the names that lead to it. -/
inductive Contributes (fs : FileSystem) (base : Option ItemPath) (onlyFiles : Bool)
    (e : WalkEntry) : Listing → Prop
  | nothing {s : FileStatus} (status : entryStatus fs e = .ok s)
      (folder : onlyFiles = true ∧ s.node.isDirectory = true) : Contributes fs base onlyFiles e []
  | item {s : FileStatus} {texts : List String} {path : ItemPath}
      (status : entryStatus fs e = .ok s)
      (wanted : ¬(onlyFiles = true ∧ s.node.isDirectory = true))
      (names : ReadAs e.names texts)
      (place : path.text = "/".intercalate (base.toList.map (·.text) ++ texts)) :
      Contributes fs base onlyFiles e [(path, .ofNode e.path s.node)]

/-- What a recursive listing takes from a walked entry. -/
def share (fs : FileSystem) (base : Option ItemPath) (pattern : Option Wildcard)
    (o : IndexOptions) (e : WalkEntry) : Except UpdateError Listing := do
  let name ← entryName e
  if selected pattern o.filterPolicy name then ofEntry fs base o.onlyFiles e else pure []

/-- The path inside the archive of a directory that is listed. -/
def rootPath (o : IndexOptions) (dir : DiskPath) : Except UpdateError (Option ItemPath) :=
  if o.retainFolders then ItemPath.ofDiskNames? dir else ItemPath.ofDisk? dir none

/-- The directory itself in its listing. -/
def own (o : IndexOptions) (base : Option ItemPath) (root : DiskItem) : Listing :=
  if o.onlyFiles then [] else base.toList.map (·, root)

/-- A directory and what lies below it, with the filter policy for the latter. -/
def whole (fs : FileSystem) (dir : DiskPath) (root : DiskItem) (o : IndexOptions)
    (policy : FilterPolicy) : Except UpdateError Listing := do
  let base ← rootPath o dir
  let rest ← below fs dir base none { o with filterPolicy := policy }
  pure (own o base root ++ rest)

variable {fs : FileSystem} {dir : DiskPath} {root : DiskItem} {base : Option ItemPath}
  {pattern : Option Wildcard} {o : IndexOptions} {l : Listing}

/-- Below the directories directly in the listed one, and everywhere with recursion, a listing
enters every directory. -/
theorem visit_eq_noting {e : WalkEntry} (henters : (o.recursive || e.depth ≠ 1) = true) :
    visit fs base pattern o e = FileSystem.noting (share fs base pattern o) e := by
  unfold visit FileSystem.noting share
  rw [henters]
  cases entryName e with
  | error e => rfl
  | ok name =>
    dsimp only [bind, Except.bind]
    split
    · cases ofEntry fs base o.onlyFiles e <;> rfl
    · rfl

/-- A recursive listing walks through everything and takes its share of each entry. -/
theorem below_eq_ok_iff (hrec : o.recursive = true) :
    below fs dir base pattern o = .ok l ↔
      ∃ es, fs.walk o.symlinkPolicy.follows dir = .ok es ∧
        gather (share fs base pattern o) es = .ok l := by
  have hvisit : visit fs base pattern o = FileSystem.noting (share fs base pattern o) := by
    funext e
    exact visit_eq_noting (by rw [hrec, Bool.true_or])
  unfold below
  rw [hvisit]
  apply FileSystem.walkWith_noting

/-- Telling a failure as one of the update changes no success. -/
theorem onDisk_eq_ok_iff {α : Type} {answer : Except IoError α} {a : α} :
    onDisk answer = .ok a ↔ answer = .ok a := by
  unfold onDisk
  split <;> simp

/-- What is listed as a directory is one. -/
theorem exists_root_of_ofDirectory {filter : String} (h : ofDirectory fs dir filter o = .ok l) :
    ∃ root, DiskItem.find fs o.symlinkPolicy dir = .ok root ∧ root.isDir = true := by
  obtain ⟨root, hroot, h⟩ := bind_eq_ok_iff.1 h
  refine ⟨root, onDisk_eq_ok_iff.1 hroot, ?_⟩
  cases hdir : root.isDir with
  | false =>
    rw [hdir] at h
    cases h
  | true => rfl

/-- A block that chooses the path and goes on has the rest of the block in both branches. -/
theorem bind_rootPath (rest : Option ItemPath → Except UpdateError Listing) :
    (if o.retainFolders = true then ItemPath.ofDiskNames? dir >>= rest
      else ItemPath.ofDisk? dir none >>= rest) = rootPath o dir >>= rest := by
  unfold rootPath
  split <;> rfl

/-- Without a filter the call for a directory lists all of it, under the policy that it was
given. -/
theorem ofDirectory_eq_whole (hroot : DiskItem.find fs o.symlinkPolicy dir = .ok root)
    (hdir : root.isDir = true) :
    ofDirectory fs dir "" o = whole fs dir root o o.filterPolicy := by
  unfold ofDirectory whole
  rw [hroot, ← bind_rootPath]
  dsimp only [onDisk, bind, Except.bind]
  rw [hdir]
  have hown : ∀ base : Option ItemPath,
      (if (true && !o.onlyFiles) = true then base.toList.map (·, root) else []) =
        own o base root := by
    intro base
    unfold own
    cases o.onlyFiles <;> rfl
  show (if o.retainFolders = true then _ else _) = _
  simp only [Option.isNone_none, hown]
  rfl

/-- The call for paths lists all of a directory, under the including policy whatever it was
given. -/
theorem ofPath_eq_whole (hrec : o.recursive = true)
    (hroot : DiskItem.find fs o.symlinkPolicy dir = .ok root) (hdir : root.isDir = true) :
    ofPath fs dir none o = whole fs dir root o .include := by
  unfold ofPath whole
  rw [hroot, ← bind_rootPath]
  dsimp only [onDisk, bind, Except.bind]
  rw [hdir, hrec]
  rfl

/-- A whole directory is listed if it has a path inside the archive or needs none and the listing of
what lies below succeeds. -/
theorem whole_eq_ok_iff {policy : FilterPolicy} : whole fs dir root o policy = .ok l ↔
    ∃ base rest, rootPath o dir = .ok base ∧
      below fs dir base none { o with filterPolicy := policy } = .ok rest ∧
      own o base root ++ rest = l := by
  unfold whole
  rw [bind_eq_ok_iff]
  apply exists_congr
  intro base
  rw [bind_eq_ok_iff]
  simp only [pure, Except.pure, Except.ok.injEq, exists_and_left]

/-- A joined path is the texts of both with a slash between them. -/
theorem text_of_join {base relative path : ItemPath} {texts : List String} (hne : texts ≠ [])
    (hrelative : relative.text = "/".intercalate texts)
    (hpath : base.join relative.text = .ok path) :
    path.text = "/".intercalate (base.text :: texts) := by
  rw [ItemPath.parse_eq_ok_iff.1 hpath, hrelative, String.intercalate_cons_of_ne_nil hne]

/-- The listing of one entry is what the entry contributes. -/
theorem contributes_of_ofEntry {e : WalkEntry} {onlyFiles : Bool} (hne : e.names ≠ [])
    (h : ofEntry fs base onlyFiles e = .ok l) : Contributes fs base onlyFiles e l := by
  obtain ⟨s, hstatus, h⟩ := bind_eq_ok_iff.1 h
  split at h
  · rename_i hfolder
    cases h
    exact .nothing hstatus hfolder
  · rename_i hwanted
    obtain ⟨found, hfound, h⟩ := bind_eq_ok_iff.1 h
    obtain ⟨relative, texts, hread, hrelative, rfl⟩ := (ofDiskNames?_relativePath hne).1 hfound
    have htexts : texts ≠ [] := by
      rintro rfl
      exact hne (List.forall₂_nil_right_iff.1 hread)
    cases base with
    | none =>
      cases h
      exact .item hstatus hwanted hread hrelative
    | some base =>
      obtain ⟨path, hpath, h⟩ := bind_eq_ok_iff.1 h
      cases h
      exact .item hstatus hwanted hread (text_of_join htexts hrelative hpath)

/-- Without a filter the including policy takes every entry. -/
theorem contributes_of_shares {es : List WalkEntry} {parts : List Listing}
    (hinclude : o.filterPolicy = .include) (hnames : ∀ e ∈ es, e.names ≠ [])
    (h : List.Forall₂ (fun e part => share fs base none o e = .ok part) es parts) :
    List.Forall₂ (Contributes fs base o.onlyFiles) es parts := by
  induction h with
  | nil => exact .nil
  | @cons e part es parts hpart _ ih =>
    obtain ⟨name, -, hpart⟩ := bind_eq_ok_iff.1 hpart
    rw [hinclude] at hpart
    have hcontributes : Contributes fs base o.onlyFiles e part :=
      contributes_of_ofEntry (hnames e List.mem_cons_self) hpart
    exact .cons hcontributes (ih fun e he => hnames e (List.mem_cons_of_mem _ he))

/-- Without a filter every name matches, so the excluding policy takes no entry. -/
theorem eq_nil_of_shares {es : List WalkEntry} (hexclude : o.filterPolicy = .exclude)
    (h : gather (share fs base none o) es = .ok l) : l = [] := by
  apply List.eq_nil_iff_forall_not_mem.2
  intro listed hlisted
  obtain ⟨e, -, part, hpart, hlisted⟩ := mem_of_gather h hlisted
  obtain ⟨name, -, hpart⟩ := bind_eq_ok_iff.1 hpart
  rw [hexclude] at hpart
  cases hpart
  cases hlisted

end Listing

namespace Addition

/-- A call for one path adds what is listed there and leaves the world alone. -/
theorem items_paths_eq (o : IndexOptions) (h : Host) (path : DiskPath) :
    (paths [path]).items o h = ((Listing.ofPath h.files path none o).map ofListing, h) := by
  simp only [items, gather_singleton]

/-- What is listed at a path is added by a call for this path. -/
theorem items_paths_singleton {o : IndexOptions} {h : Host} {dir : DiskPath} {l : Listing}
    (hpath : Listing.ofPath h.files dir none o = .ok l) :
    (paths [dir]).items o h = (.ok (ofListing l), h) := by
  rw [items_paths_eq, hpath]
  rfl

/-- A directory that was added lists itself and, with the including policy, everything below it in
the order of the walk; that is what the call for paths adds too.  The excluding policy drops
everything below, although there is no filter. -/
theorem directory_lists_below_unless_excluding {o : IndexOptions} {h : Host} {dir : DiskPath}
    {new : List NewItem} (hok : ((directory dir).items o h).1 = .ok new) :
    ∃ root base es, DiskItem.find h.files o.symlinkPolicy dir = .ok root ∧ root.isDir = true ∧
      Listing.rootPath o dir = .ok base ∧ h.files.walk o.symlinkPolicy.follows dir = .ok es ∧
      (o.filterPolicy = .include →
        (∃ parts, List.Forall₂ (Listing.Contributes h.files base o.onlyFiles) es parts ∧
          new = ofListing (Listing.own o base root ++ parts.flatten)) ∧
        (paths [dir]).items { o with recursive := true } h = (.ok new, h)) ∧
      (o.filterPolicy = .exclude → new = ofListing (Listing.own o base root)) := by
  obtain ⟨l, hlist, rfl⟩ := map_eq_ok_iff.1 hok
  obtain ⟨root, hroot, hdir⟩ := Listing.exists_root_of_ofDirectory hlist
  have hwhole := hlist
  rw [Listing.ofDirectory_eq_whole hroot hdir] at hwhole
  obtain ⟨base, rest, hbase, hrest, rfl⟩ := Listing.whole_eq_ok_iff.1 hwhole
  obtain ⟨es, hes, hshares⟩ := (Listing.below_eq_ok_iff rfl).1 hrest
  refine ⟨root, base, es, hroot, hdir, hbase, hes, ?_, ?_⟩
  · intro hinclude
    constructor
    · obtain ⟨parts, hparts, rfl⟩ := gather_eq_ok_iff.1 hshares
      have hnames := FileSystem.names_ne_nil_of_walk hes
      exact ⟨parts, Listing.contributes_of_shares hinclude hnames hparts, rfl⟩
    · apply items_paths_singleton
      rw [Listing.ofPath_eq_whole rfl hroot hdir, ← hinclude]
      exact hwhole
  · intro hexclude
    rw [Listing.eq_nil_of_shares hexclude hshares, List.append_nil]
    rfl

/-! ### A directory with one file in it -/

namespace OneFile

/-- The name `d`. -/
def folderName : FileName := ⟨[0x64], by decide, by decide, by decide, by decide, by decide⟩

/-- The name `f`. -/
def fileName : FileName := ⟨[0x66], by decide, by decide, by decide, by decide, by decide⟩

/-- An empty file. -/
def node : Node := .file [] ⟨0o644, ⟨0, 0⟩, ⟨0, 0⟩, none⟩

/-- The world in which the directory `d` holds the file `f` and there is nothing else. -/
def host : Host :=
  ⟨⟨⟨[([folderName], FileTree.plainDirectory), ([folderName, fileName], node)], by decide⟩, [], []⟩,
    [], default⟩

/-- The path `d`. -/
def dir : DiskPath := ⟨[0x64]⟩

/-- The directory as it is listed. -/
def folder : ItemPath × DiskItem :=
  (⟨"d", by decide, (PathFault.of?_eq_none_iff.1 rfl).2⟩, .ofNode dir FileTree.plainDirectory)

/-- The file as it is listed. -/
def file : ItemPath × DiskItem :=
  (⟨"d/f", by decide, (PathFault.of?_eq_none_iff.1 rfl).2⟩, .ofNode (dir.child fileName) node)

/-- With the including policy the file is listed. -/
theorem below_of_include :
    Listing.below host.files dir (some folder.1) none {} = .ok [file] :=
  (Listing.below_eq_ok_iff rfl).2 ⟨_, FileSystem.walk_of_one_entry rfl rfl rfl, rfl⟩

/-- With the excluding policy it is not. -/
theorem below_of_exclude :
    Listing.below host.files dir (some folder.1) none { filterPolicy := .exclude } = .ok [] :=
  (Listing.below_eq_ok_iff rfl).2 ⟨_, FileSystem.walk_of_one_entry rfl rfl rfl, rfl⟩

end OneFile

/-! ### Directories within a directory -/

namespace Nested

/-- The name `a`. -/
def a : FileName := ⟨[0x61], by decide, by decide, by decide, by decide, by decide⟩

/-- The name `b`. -/
def b : FileName := ⟨[0x62], by decide, by decide, by decide, by decide, by decide⟩

/-- The name `d`. -/
def d : FileName := OneFile.folderName

/-- The name `f`. -/
def f : FileName := OneFile.fileName

/-- The name `g`. -/
def g : FileName := ⟨[0x67], by decide, by decide, by decide, by decide, by decide⟩

/-- The world in which the directory `d` holds two others: `a`, with a directory `b` and a file `f`,
and `f`, with a file `g`; and there is another file `g` in `b`. -/
def host : Host :=
  ⟨⟨⟨[([d], FileTree.plainDirectory), ([d, a], FileTree.plainDirectory),
      ([d, a, b], FileTree.plainDirectory), ([d, a, b, g], OneFile.node),
      ([d, a, f], OneFile.node), ([d, f], FileTree.plainDirectory), ([d, f, g], OneFile.node)],
    by decide⟩, [], []⟩, [], default⟩

/-- The path of the directory `a`, with a dot in front. -/
def dotted : DiskPath := ((DiskPath.mk [dotByte]).child d).child a

/-- A node as it is listed, under a path inside the archive. -/
def listed (place : ItemPath) (path : DiskPath) (node : Node) : ItemPath × DiskItem :=
  (place, .ofNode path node)

/-- What is met and found below `d` under these names, where there is no link. -/
def met (names : List FileName) (node : Node) : WalkEntry × Node :=
  (⟨names.foldl DiskPath.child OneFile.dir, names, node, false⟩, node)

/-- Everything below `d`, in the order of a walk. -/
def found : List (WalkEntry × Node) :=
  [met [a] FileTree.plainDirectory, met [a, b] FileTree.plainDirectory,
    met [a, b, g] OneFile.node, met [a, f] OneFile.node, met [f] FileTree.plainDirectory,
    met [f, g] OneFile.node]

/-- Without recursion and links, but with folders retained, only files are wanted. -/
def onlyFiles : IndexOptions where
  recursive := false
  retainFolders := true
  onlyFiles := true
  symlinkPolicy := .doNotFollow

/-- The files below `a`, the deeper one first. -/
def files : Listing :=
  [listed ⟨"d/a/b/g", by decide, (PathFault.of?_eq_none_iff.1 rfl).2⟩ ((dotted.child b).child g)
      OneFile.node,
    listed ⟨"d/a/f", by decide, (PathFault.of?_eq_none_iff.1 rfl).2⟩ (dotted.child f) OneFile.node]

end Nested

/-- Where only files are wanted and folders are retained, both calls add the two files below the
directory `d/a`, though recursion is off. -/
theorem directory_lists_below_of_nested_files :
    ((directory Nested.dotted).items Nested.onlyFiles Nested.host).1 =
      .ok (ofListing Nested.files) ∧
    ((paths [Nested.dotted]).items { Nested.onlyFiles with recursive := true } Nested.host).1 =
      .ok (ofListing Nested.files) := by
  have hok : ((directory Nested.dotted).items Nested.onlyFiles Nested.host).1 =
      .ok (ofListing Nested.files) := by cbv
  obtain ⟨_, _, _, -, -, -, -, hinclude, -⟩ := directory_lists_below_unless_excluding hok
  obtain ⟨-, hpaths⟩ := hinclude rfl
  rw [hpaths]
  exact ⟨hok, rfl⟩

/-- Under the excluding policy the two calls differ on a directory with one file in it. -/
theorem directory_omits_below_of_one_file :
    ((directory OneFile.dir).items { filterPolicy := .exclude } OneFile.host).1 =
      .ok (ofListing [OneFile.folder]) ∧
    ((paths [OneFile.dir]).items { filterPolicy := .exclude } OneFile.host).1 =
      .ok (ofListing [OneFile.folder, OneFile.file]) := by
  constructor
  · have hlist : Listing.ofDirectory OneFile.host.files OneFile.dir ""
        { filterPolicy := .exclude } = .ok [OneFile.folder] :=
      (Listing.ofDirectory_eq_whole rfl rfl).trans
        (Listing.whole_eq_ok_iff.2 ⟨_, _, rfl, OneFile.below_of_exclude, rfl⟩)
    exact map_eq_ok_iff.2 ⟨_, hlist, rfl⟩
  · have hlist : Listing.ofPath OneFile.host.files OneFile.dir none { filterPolicy := .exclude } =
        .ok [OneFile.folder, OneFile.file] :=
      (Listing.ofPath_eq_whole rfl rfl rfl).trans
        (Listing.whole_eq_ok_iff.2 ⟨_, _, rfl, OneFile.below_of_include, rfl⟩)
    rw [items_paths_singleton hlist]

end Addition

end ArchiveUpdate
