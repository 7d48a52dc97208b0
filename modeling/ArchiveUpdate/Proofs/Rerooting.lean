import ArchiveUpdate.Proofs.JoiningPaths
import ArchiveUpdate.Proofs.SingleFile

/-!
# Adding a directory under another name

A listing looks at the path of the walked directory inside the archive only to join it with what it
has found: below some path it is the listing below none with every path joined to that one
(`below_under_iff`).  So two listings of one directory under different paths tell the same entries
in the same order, and one is the other with its root replaced (`placed_iff`).  This is what an
alias does to a call for paths (`alias_moves_root`).
-/

set_option autoImplicit false

namespace ArchiveUpdate

namespace ItemPath

/-- The second path is the first one with another root: both are the roots themselves, or they lie
below them under the same names. -/
inductive Rerooted (old new : ItemPath) : ItemPath → ItemPath → Prop
  | root : Rerooted old new old new
  | below {p q : ItemPath} {rest : String} (inOld : p.text = old.text ++ "/" ++ rest)
      (inNew : q.text = new.text ++ "/" ++ rest) : Rerooted old new p q

variable {old new p q : ItemPath} {rest : String}

/-- The empty text is not a path. -/
theorem parse_empty : parse "" = .error (.invalidItemPath "empty path") := rfl

/-- No path lies below itself. -/
theorem text_ne_joined (p : ItemPath) (rest : String) : p.text ≠ p.text ++ "/" ++ rest := by
  intro h
  have hsize := congrArg String.utf8ByteSize h
  rw [size_joined] at hsize
  omega

/-- The root itself only becomes the new root. -/
theorem rerooted_root_iff : Rerooted old new old q ↔ q = new := by
  constructor
  · intro h
    cases h with
    | root => rfl
    | below inOld inNew => exact absurd inOld (old.text_ne_joined _)
  · rintro rfl
    exact .root

/-- A path is moved below the new root as it stands below the old one. -/
theorem rerooted_below_iff (hold : old.join rest = .ok p) :
    Rerooted old new p q ↔ new.join rest = .ok q := by
  rw [join_eq_ok_iff] at hold ⊢
  constructor
  · intro h
    cases h with
    | root => exact absurd hold (old.text_ne_joined rest)
    | below inOld inNew =>
      rw [hold, String.append_right_inj] at inOld
      rw [inNew, inOld]
  · exact .below hold

end ItemPath

/-- The second item is the first one with another root of its path. -/
structure NewItem.Moved (old new : ItemPath) (item item' : NewItem) : Prop where
  path : ItemPath.Rerooted old new item.path item'.path
  source : item'.source = item.source

namespace Listing

/-- What was listed for a path of its own, listed below another path. -/
def under (base : ItemPath) (listed : ItemPath × DiskItem) : Except UpdateError Listing := do
  let path ← base.join listed.1.text
  pure [(path, listed.2)]

/-- Whatever is at a disk path, listed under a path inside the archive. -/
def placed (fs : FileSystem) (o : IndexOptions) (path : DiskPath) (base : ItemPath) :
    Except UpdateError Listing := do
  let item ← onDisk (DiskItem.find fs o.symlinkPolicy path)
  if !item.isDir then pure [(base, item)]
  else if o.recursive then
    let rest ← below fs path (some base) none { o with filterPolicy := .include }
    pure (own o (some base) item ++ rest)
  else pure []

/-- The second was listed as the first one was, with another root of its path. -/
def Moved (old new : ItemPath) (listed listed' : ItemPath × DiskItem) : Prop :=
  ItemPath.Rerooted old new listed.1 listed'.1 ∧ listed'.2 = listed.2

variable {fs : FileSystem} {o : IndexOptions} {dir path : DiskPath} {base old new : ItemPath}
  {pattern : Option Wildcard} {e : WalkEntry} {l l' bare : Listing}

/-- What was listed alone is listed below a path under the path joined to its own. -/
theorem under_eq_ok_iff {listed : ItemPath × DiskItem} : under base listed = .ok l ↔
    ∃ path, base.join listed.1.text = .ok path ∧ [(path, listed.2)] = l := by
  unfold under
  rw [bind_eq_ok_iff]
  simp only [pure, Except.pure, Except.ok.injEq]

/-- An entry is listed below a path as it is listed alone, and then put under the path. -/
theorem ofEntry_under_iff {onlyFiles : Bool} : ofEntry fs (some base) onlyFiles e = .ok l ↔
    ∃ bare, ofEntry fs none onlyFiles e = .ok bare ∧ gather (under base) bare = .ok l := by
  unfold ofEntry
  cases entryStatus fs e with
  | error cause => simp [bind, Except.bind]
  | ok s =>
    dsimp only [bind, Except.bind]
    split
    · simp [pure, Except.pure]
    · cases ItemPath.ofDiskNames? (relativePath e.names) with
      | error cause => simp
      | ok found =>
        cases found with
        | none => simp [pure, Except.pure]
        | some relative =>
          simp only [pure, Except.pure, Except.ok.injEq, exists_eq_left', gather_singleton]
          rfl

/-- The share of an entry below a path is its share alone, put under the path. -/
theorem share_under_iff : share fs (some base) pattern o e = .ok l ↔
    ∃ bare, share fs none pattern o e = .ok bare ∧ gather (under base) bare = .ok l := by
  unfold share
  cases entryName e with
  | error cause => simp [bind, Except.bind]
  | ok name =>
    dsimp only [bind, Except.bind]
    split
    · exact ofEntry_under_iff
    · simp [pure, Except.pure]

/-- Below a path inside the archive a recursive listing is what it is below none, every path joined
to that one. -/
theorem below_under_iff (hrec : o.recursive = true) : below fs dir (some base) pattern o = .ok l ↔
    ∃ bare, below fs dir none pattern o = .ok bare ∧ gather (under base) bare = .ok l := by
  simp only [below_eq_ok_iff hrec]
  constructor
  · rintro ⟨es, hes, hshares⟩
    obtain ⟨bare, hbare, hjoined⟩ := (gather_fuse (fun _ _ => share_under_iff) es l).1 hshares
    exact ⟨bare, ⟨es, hes, hbare⟩, hjoined⟩
  · rintro ⟨bare, ⟨es, hes, hbare⟩, hjoined⟩
    exact ⟨es, hes, (gather_fuse (fun _ _ => share_under_iff) es l).2 ⟨bare, hbare, hjoined⟩⟩

/-- One listing put below two paths is the same there but for the root.  The names below the old
root are known from the listing, so there is one way only to move each path. -/
theorem gather_under_iff (hold : gather (under old) bare = .ok l) :
    gather (under new) bare = .ok l' ↔ List.Forall₂ (Moved old new) l l' := by
  induction bare generalizing l l' with
  | nil =>
    cases hold
    rw [gather_nil, Except.ok.injEq, List.forall₂_nil_left_iff, eq_comm]
  | cons listed bare ih =>
    obtain ⟨_, rest, hlisted, hrest, rfl⟩ := gather_cons_eq_ok_iff.1 hold
    obtain ⟨path, hpath, rfl⟩ := under_eq_ok_iff.1 hlisted
    rw [gather_cons_eq_ok_iff, List.singleton_append, List.forall₂_cons_left_iff]
    constructor
    · rintro ⟨_, rest', hlisted', hrest', rfl⟩
      obtain ⟨path', hpath', rfl⟩ := under_eq_ok_iff.1 hlisted'
      have hmoved : Moved old new (path, listed.2) (path', listed.2) :=
        ⟨(ItemPath.rerooted_below_iff hpath).2 hpath', rfl⟩
      exact ⟨_, rest', hmoved, (ih hrest).1 hrest', rfl⟩
    · rintro ⟨⟨path', item⟩, rest', ⟨hmoved, hitem⟩, hrest', rfl⟩
      obtain rfl : item = listed.2 := hitem
      exact ⟨_, rest', under_eq_ok_iff.2 ⟨path', (ItemPath.rerooted_below_iff hpath).1 hmoved, rfl⟩,
        (ih hrest).2 hrest', rfl⟩

/-- What is at a disk path is listed when it is found: a file alone, and a directory with all below
it if subdirectories are entered. -/
theorem placed_eq_ok_iff : placed fs o path base = .ok l ↔
    ∃ item, DiskItem.find fs o.symlinkPolicy path = .ok item ∧
      if item.isDir = false then [(base, item)] = l
      else if o.recursive = true then
        ∃ rest, below fs path (some base) none { o with filterPolicy := .include } = .ok rest ∧
          own o (some base) item ++ rest = l
      else [] = l := by
  unfold placed
  rw [bind_eq_ok_iff]
  simp only [onDisk_eq_ok_iff]
  apply exists_congr
  intro item
  cases item.isDir with
  | false => simp [pure, Except.pure]
  | true =>
    simp only [Bool.not_true, Bool.false_eq_true, if_false, Bool.true_eq_false]
    split
    · rw [bind_eq_ok_iff]
      simp only [pure, Except.pure, Except.ok.injEq]
    · simp only [pure, Except.pure, Except.ok.injEq]

/-- What is listed as the root itself is listed as the new root, with the same item. -/
theorem moved_root_iff {item : DiskItem} {listed' : ItemPath × DiskItem} :
    Moved old new (old, item) listed' ↔ listed' = (new, item) := by
  rw [Moved, ItemPath.rerooted_root_iff, Prod.ext_iff]

/-- A listing that starts with the directory itself moves as its rest does. -/
theorem moved_own_append_iff {item : DiskItem} :
    List.Forall₂ (Moved old new) (own o (some old) item ++ l) l' ↔
      ∃ rest, List.Forall₂ (Moved old new) l rest ∧ own o (some new) item ++ rest = l' := by
  unfold own
  split
  · simp
  · simp [List.forall₂_cons_left_iff, moved_root_iff, eq_comm]

/-- Two listings of one path under different paths inside the archive are the same but for the
root, and the second one is there wherever the first one can be moved. -/
theorem placed_iff (hold : placed fs o path old = .ok l) :
    placed fs o path new = .ok l' ↔ List.Forall₂ (Moved old new) l l' := by
  obtain ⟨item, hitem, hold⟩ := placed_eq_ok_iff.1 hold
  rw [placed_eq_ok_iff, hitem]
  simp only [Except.ok.injEq, exists_eq_left']
  split at hold
  · rename_i hfile
    rw [if_pos hfile, ← hold, List.forall₂_cons_left_iff]
    simp [moved_root_iff, eq_comm]
  · rename_i hdir
    rw [if_neg hdir]
    split at hold
    · rename_i hrec
      have hall : { o with filterPolicy := .include }.recursive = true := hrec
      obtain ⟨rest, hrest, rfl⟩ := hold
      obtain ⟨bare, hbare, hjoined⟩ := (below_under_iff hall).1 hrest
      rw [if_pos hrec, moved_own_append_iff]
      apply exists_congr
      intro rest'
      rw [below_under_iff hall, hbare]
      simp only [Except.ok.injEq, exists_eq_left', gather_under_iff hjoined]
    · rename_i hrec
      rw [if_neg hrec, ← hold, List.forall₂_nil_left_iff, eq_comm]

/-- With an alias, what is at the path is listed under the alias. -/
theorem ofPath_some (fs : FileSystem) (o : IndexOptions) (path : DiskPath) (given : ItemPath) :
    ofPath fs path (some given) o = placed fs o path given := by
  unfold ofPath placed own
  cases onDisk (DiskItem.find fs o.symlinkPolicy path) <;> rfl

/-- Without an alias, what is at the path is listed under the path that is derived for it. -/
theorem ofPath_none (hbase : rootPath o path = .ok (some base)) :
    ofPath fs path none o = placed fs o path base := by
  unfold ofPath placed own
  cases onDisk (DiskItem.find fs o.symlinkPolicy path) with
  | error e => rfl
  | ok item =>
    dsimp only [bind, Except.bind]
    unfold rootPath at hbase
    split at hbase
    · rename_i hretains
      rw [if_pos hretains, hbase]
    · rename_i hdrops
      rw [if_neg hdrops, hbase]

/-- The content of a whole directory in its listing: itself and what each entry of the walk
contributes. -/
theorem placed_of_dir {item : DiskItem} (hitem : DiskItem.find fs o.symlinkPolicy path = .ok item)
    (hdir : item.isDir = true) (hrec : o.recursive = true) (h : placed fs o path base = .ok l) :
    ∃ es parts, fs.walk o.symlinkPolicy.follows path = .ok es ∧
      List.Forall₂ (Contributes fs (some base) o.onlyFiles) es parts ∧
      l = own o (some base) item ++ parts.flatten := by
  obtain ⟨item', hitem', h⟩ := placed_eq_ok_iff.1 h
  rw [hitem] at hitem'
  cases hitem'
  rw [if_neg (by simp [hdir]), if_pos hrec] at h
  obtain ⟨rest, hrest, rfl⟩ := h
  have hall : { o with filterPolicy := .include }.recursive = true := hrec
  obtain ⟨es, hes, hshares⟩ := (below_eq_ok_iff hall).1 hrest
  obtain ⟨parts, hparts, rfl⟩ := gather_eq_ok_iff.1 hshares
  have hincludes : { o with filterPolicy := .include }.filterPolicy = .include := rfl
  have hnames := FileSystem.names_ne_nil_of_walk hes
  have hcontributes := contributes_of_shares hincludes hnames hparts
  exact ⟨es, parts, hes, hcontributes, rfl⟩

end Listing

namespace Addition

variable {o : IndexOptions} {h : Host} {path : DiskPath} {base old new : ItemPath}
  {named : List NewItem} {l : Listing}

/-- A call for one path under an alias lists it under the path that the alias stands for; an empty
alias stands for the derived path. -/
theorem items_pathsAs_eq_ok_iff (hbase : Listing.rootPath o path = .ok (some base))
    {given : String} : ((pathsAs [(path, given)]).items o h).1 = .ok named ↔
      ∃ root, (given = "" ∧ root = base ∨ ItemPath.parse given = .ok root) ∧
        ∃ l, Listing.placed h.files o path root = .ok l ∧ ofListing l = named := by
  have hcall : ((pathsAs [(path, given)]).items o h).1 = ofListing <$>
      (givenPath given >>= fun found => Listing.ofPath h.files path found o) := by
    simp only [items, gather_singleton]
    rfl
  rw [hcall, map_eq_ok_iff]
  simp only [bind_eq_ok_iff]
  unfold givenPath
  split
  · rename_i hempty
    obtain rfl : given = "" := by simpa using hempty
    simp only [ItemPath.parse_empty, Except.ok.injEq, exists_eq_left', Listing.ofPath_none hbase,
      true_and, reduceCtorEq, or_false, exists_eq_left]
  · rename_i hgiven
    have hne : given ≠ "" := by simpa using hgiven
    simp only [hne, false_and, false_or, map_eq_ok_iff]
    constructor
    · rintro ⟨l, ⟨_, ⟨root, hroot, rfl⟩, hlist⟩, rfl⟩
      rw [Listing.ofPath_some] at hlist
      exact ⟨root, hroot, l, hlist, rfl⟩
    · rintro ⟨root, hroot, l, hlist, rfl⟩
      rw [← Listing.ofPath_some] at hlist
      exact ⟨l, ⟨_, ⟨root, hroot, rfl⟩, hlist⟩, rfl⟩

/-- New items move with the listing that they are made of. -/
theorem moved_ofListing_iff : List.Forall₂ (NewItem.Moved old new) (ofListing l) named ↔
    ∃ l', List.Forall₂ (Listing.Moved old new) l l' ∧ ofListing l' = named := by
  constructor
  · intro hmoved
    induction l generalizing named with
    | nil =>
      cases hmoved
      exact ⟨[], .nil, rfl⟩
    | cons listed l ih =>
      obtain ⟨⟨path, source⟩, rest, ⟨hpath, hsource⟩, hrest, rfl⟩ :=
        List.forall₂_cons_left_iff.1 hmoved
      -- the source is that of a listed item, so this is a listed item as well
      obtain rfl : source = .disk listed.2 := hsource
      obtain ⟨l', hl', rfl⟩ := ih hrest
      exact ⟨(path, listed.2) :: l', .cons ⟨hpath, rfl⟩ hl', rfl⟩
  · rintro ⟨l', hmoved, rfl⟩
    unfold ofListing
    rw [List.forall₂_map_left_iff, List.forall₂_map_right_iff]
    exact hmoved.imp fun _ _ h => ⟨h.1, congrArg ItemSource.disk h.2⟩

/-- An alias in a call for a path replaces the root of what the call adds without one, and does
nothing else: the same items found on disk are added in the same order, the one under the derived
path is under the alias, and the others are below the alias as they were below the derived path.
The call fails only where the alias is no path or a moved path would be none.  For a directory that
is listed recursively there is something to move, namely the directory itself and what each entry of
the walk contributes. -/
theorem alias_moves_root {derived : List NewItem}
    (hbase : Listing.rootPath o path = .ok (some base))
    (hderived : ((pathsAs [(path, "")]).items o h).1 = .ok derived) :
    (∀ given named, ((pathsAs [(path, given)]).items o h).1 = .ok named ↔
      ∃ root, (given = "" ∧ root = base ∨ ItemPath.parse given = .ok root) ∧
        List.Forall₂ (NewItem.Moved base root) derived named) ∧
    ∀ item, DiskItem.find h.files o.symlinkPolicy path = .ok item → item.isDir = true →
      o.recursive = true → ∃ es parts, h.files.walk o.symlinkPolicy.follows path = .ok es ∧
        List.Forall₂ (Listing.Contributes h.files (some base) o.onlyFiles) es parts ∧
        derived = ofListing (Listing.own o (some base) item ++ parts.flatten) := by
  obtain ⟨root, hroot, l, hlist, rfl⟩ := (items_pathsAs_eq_ok_iff hbase).1 hderived
  have hderives : root = base := by
    rcases hroot with ⟨-, hroot⟩ | hroot
    · exact hroot
    · rw [ItemPath.parse_empty] at hroot
      cases hroot
  rw [hderives] at hlist
  constructor
  · intro given named
    rw [items_pathsAs_eq_ok_iff hbase]
    simp only [Listing.placed_iff hlist, moved_ofListing_iff]
  · intro item hitem hdir hrec
    obtain ⟨es, parts, hwalk, hparts, rfl⟩ := Listing.placed_of_dir hitem hdir hrec hlist
    exact ⟨es, parts, hwalk, hparts, rfl⟩

namespace Nested

/-- With folders retained a directory has its whole path inside the archive. -/
def retained : IndexOptions where
  retainFolders := true
  filterPolicy := .exclude
  symlinkPolicy := .doNotFollow

/-- The whole path of the directory `a`. -/
def wholePath : ItemPath := ⟨"d/a", by decide, (PathFault.of?_eq_none_iff.1 rfl).2⟩

/-- An alias for it. -/
def newRoot : ItemPath := ⟨"x", by decide, (PathFault.of?_eq_none_iff.1 rfl).2⟩

/-- The directory `a` with all that lies below it. -/
def derived : Listing :=
  listed wholePath dotted FileTree.plainDirectory ::
    listed ⟨"d/a/b", by decide, (PathFault.of?_eq_none_iff.1 rfl).2⟩ (dotted.child b)
      FileTree.plainDirectory :: files

/-- The same with the alias `x` for `d/a`. -/
def moved : Listing :=
  [listed newRoot dotted FileTree.plainDirectory,
    listed ⟨"x/b", by decide, (PathFault.of?_eq_none_iff.1 rfl).2⟩ (dotted.child b)
      FileTree.plainDirectory,
    listed ⟨"x/b/g", by decide, (PathFault.of?_eq_none_iff.1 rfl).2⟩ ((dotted.child b).child g)
      OneFile.node,
    listed ⟨"x/f", by decide, (PathFault.of?_eq_none_iff.1 rfl).2⟩ (dotted.child f) OneFile.node]

end Nested

/-- A directory with a directory and two files below it, at different depths, moves as a whole. -/
theorem alias_moves_root_of_nested_files :
    (∃ base, Listing.rootPath Nested.retained Nested.dotted = .ok (some base) ∧ base.text = "d/a") ∧
    ((pathsAs [(Nested.dotted, "")]).items Nested.retained Nested.host).1 =
      .ok (ofListing Nested.derived) ∧
    ((pathsAs [(Nested.dotted, "x")]).items Nested.retained Nested.host).1 =
      .ok (ofListing Nested.moved) := by
  have hbase : Listing.rootPath Nested.retained Nested.dotted = .ok (some Nested.wholePath) := by
    cbv
  have hderived : ((pathsAs [(Nested.dotted, "")]).items Nested.retained Nested.host).1 =
      .ok (ofListing Nested.derived) := by cbv
  have hbelow : ∀ {p q : ItemPath} (rest : String), p.text = Nested.wholePath.text ++ "/" ++ rest →
      q.text = Nested.newRoot.text ++ "/" ++ rest →
        ItemPath.Rerooted Nested.wholePath Nested.newRoot p q :=
    fun _ => .below
  have hmoved : List.Forall₂ (NewItem.Moved Nested.wholePath Nested.newRoot)
      (ofListing Nested.derived) (ofListing Nested.moved) := by
    refine .cons ⟨.root, rfl⟩ (.cons ⟨?_, rfl⟩ (.cons ⟨?_, rfl⟩ (.cons ⟨?_, rfl⟩ .nil)))
    · exact hbelow "b" rfl rfl
    · exact hbelow "b/g" rfl rfl
    · exact hbelow "f" rfl rfl
  exact ⟨⟨Nested.wholePath, hbase, rfl⟩, hderived,
    ((alias_moves_root hbase hderived).1 "x" _).2 ⟨Nested.newRoot, .inr rfl, hmoved⟩⟩

end Addition

end ArchiveUpdate
