import ArchiveUpdate.Proofs.DerivedPaths
import ArchiveUpdate.Proofs.DirectoryListing

/-!
# One file, added by itself or among paths

A call for one file and calls for paths look at a file in the same way and record the same of it.
They differ in its path inside the archive: the calls for paths retain all its folders if the
options say so, and the call for one file never looks at that option (`one_file_added`).
-/

set_option autoImplicit false

namespace ArchiveUpdate

namespace ItemPath

/-- The path that a disk path must yield. -/
def required (path : DiskPath) : Option ItemPath → Except UpdateError ItemPath
  | some found => .ok found
  | none => .error (noName path)

/-- The path that must be found is the one that is found. -/
theorem required_eq_ok_iff {path : DiskPath} {found : Option ItemPath} {p : ItemPath} :
    required path found = .ok p ↔ found = some p := by
  cases found <;> simp [required]

/-- With an empty name a path is derived from the disk path. -/
theorem ofGivenName_empty (path : DiskPath) :
    ofGivenName path "" = ofDisk? path none >>= required path := by
  show (ofDisk? path none >>= fun found => match found with
    | some path => pure path
    | none => throw (noName path)) = _
  cases ofDisk? path none with
  | error e => rfl
  | ok found => cases found <;> rfl

end ItemPath

namespace Listing

variable {fs : FileSystem} {o : IndexOptions} {path : DiskPath} {item : DiskItem}

/-- What cannot be found on disk is not listed. -/
theorem ofPath_of_error {e : IoError} (h : DiskItem.find fs o.symlinkPolicy path = .error e) :
    ofPath fs path none o = .error (.io e) := by
  unfold ofPath
  rw [h]
  rfl

/-- What is no directory is listed by itself, under the path that is derived for it. -/
theorem ofPath_of_file (hitem : DiskItem.find fs o.symlinkPolicy path = .ok item)
    (hfile : item.isDir = false) :
    ofPath fs path none o =
      (rootPath o path >>= ItemPath.required path).map fun found => [(found, item)] := by
  unfold ofPath rootPath
  rw [hitem]
  dsimp only [onDisk, bind, Except.bind]
  rw [hfile]
  split
  · cases ItemPath.ofDiskNames? path with
    | error e => rfl
    | ok found => cases found <;> rfl
  · cases ItemPath.ofDisk? path none with
    | error e => rfl
    | ok found => cases found <;> rfl

/-- Without folders retained, or for a plain path, the root is derived as the path of a single file
is. -/
theorem rootPath_eq_ofDisk? (h : o.retainFolders = false ∨ path.isPlain = true) :
    rootPath o path = ItemPath.ofDisk? path none := by
  unfold rootPath
  rcases h with hdrops | hplain
  · rw [hdrops]
    rfl
  · rw [ItemPath.ofDisk?_of_isPlain hplain, ite_self]

/-- With folders retained the root has all names of the disk path. -/
theorem rootPath_of_retainFolders (h : o.retainFolders = true) :
    rootPath o path = ItemPath.ofDiskNames? path := if_pos h

end Listing

namespace Addition

variable {o : IndexOptions} {h : Host} {path : DiskPath} {item : DiskItem}

/-- A path with an empty alias is added as the path alone is. -/
theorem items_pathsAs_eq (o : IndexOptions) (h : Host) (path : DiskPath) :
    (pathsAs [(path, "")]).items o h = (paths [path]).items o h := by
  rw [items_paths_eq]
  simp only [items, gather_singleton]
  rfl

/-- A path with a file behind it adds the file under the path that is derived for the root. -/
theorem items_paths_of_file (hitem : DiskItem.find h.files o.symlinkPolicy path = .ok item)
    (hfile : item.isDir = false) :
    (paths [path]).items o h =
      ((Listing.rootPath o path >>= ItemPath.required path).map fun found =>
        [⟨found, .disk item⟩], h) := by
  rw [items_paths_eq, Listing.ofPath_of_file hitem hfile]
  cases Listing.rootPath o path >>= ItemPath.required path <;> rfl

/-- A single file is added under the path that is derived from its disk path. -/
theorem items_file_of_file (hitem : DiskItem.find h.files o.symlinkPolicy path = .ok item)
    (hfile : item.isDir = false) :
    (file path "").items o h =
      ((ItemPath.ofDisk? path none >>= ItemPath.required path).map fun found =>
        [⟨found, .disk item⟩], h) := by
  have hat : fileAt h.files o.symlinkPolicy path = .ok item := by
    unfold fileAt
    rw [hitem]
    dsimp only [Listing.onDisk, bind, Except.bind]
    rw [hfile]
    rfl
  simp only [items]
  rw [hat, ItemPath.ofGivenName_empty]
  cases ItemPath.ofDisk? path none >>= ItemPath.required path <;> rfl

/-- Where nothing is found, both calls fail for the same reason. -/
theorem items_file_of_error {e : IoError}
    (he : DiskItem.find h.files o.symlinkPolicy path = .error e) :
    (file path "").items o h = (.error (.io e), h) ∧
      (paths [path]).items o h = (.error (.io e), h) := by
  constructor
  · simp only [items, fileAt]
    rw [he]
    rfl
  · rw [items_paths_eq, Listing.ofPath_of_error he]
    rfl

/-- A call for one file that is no directory does what a call for its path does that retains no
folders, whatever the options say; a call for its path under an empty name is the same call.  So
all of them agree if no folders are retained or the path plainly descends from the current
directory.  For any other path the item of the call for one file is the same but for its path, which
is the last name of what the other calls retain. -/
theorem one_file_added (hfile : ∀ item,
      DiskItem.find h.files o.symlinkPolicy path = .ok item → item.isDir = false) :
    (pathsAs [(path, "")]).items o h = (paths [path]).items o h ∧
    (file path "").items o h = (paths [path]).items { o with retainFolders := false } h ∧
    (o.retainFolders = false ∨ path.isPlain = true →
      (file path "").items o h = (paths [path]).items o h) ∧
    ∀ new, ((paths [path]).items o h).1 = .ok new → ∃ item p q,
      DiskItem.find h.files o.symlinkPolicy path = .ok item ∧ new = [⟨p, .disk item⟩] ∧
      ((file path "").items o h).1 = .ok [⟨q, .disk item⟩] ∧
      (o.retainFolders = true → path.isPlain = false → q.text = p.name) := by
  refine ⟨items_pathsAs_eq o h path, ?_⟩
  cases hitem : DiskItem.find h.files o.symlinkPolicy path with
  | error e =>
    have hfails := items_file_of_error (o := { o with retainFolders := false }) hitem
    obtain ⟨hone, hall⟩ := items_file_of_error hitem
    rw [hone, hall, hfails.2]
    exact ⟨rfl, fun _ => rfl, nofun⟩
  | ok item =>
    have hdrops := items_paths_of_file (o := { o with retainFolders := false }) hitem
      (hfile item hitem)
    rw [items_file_of_file hitem (hfile item hitem), hdrops,
      items_paths_of_file hitem (hfile item hitem), Listing.rootPath_eq_ofDisk? (.inl rfl)]
    refine ⟨rfl, ?_, ?_⟩
    · intro hplain
      rw [Listing.rootPath_eq_ofDisk? hplain]
    · intro new hnew
      obtain ⟨p, hp, rfl⟩ := map_eq_ok_iff.1 hnew
      obtain ⟨found, hroot, hfound⟩ := bind_eq_ok_iff.1 hp
      obtain rfl := ItemPath.required_eq_ok_iff.1 hfound
      have hone : ∃ q, ItemPath.ofDisk? path none = .ok (some q) ∧
          (o.retainFolders = true → path.isPlain = false → q.text = p.name) := by
        cases hretain : o.retainFolders with
        | false =>
          rw [Listing.rootPath_eq_ofDisk? (.inl hretain)] at hroot
          exact ⟨p, hroot, nofun⟩
        | true =>
          cases hplain : path.isPlain with
          | true =>
            rw [Listing.rootPath_eq_ofDisk? (.inr hplain)] at hroot
            exact ⟨p, hroot, nofun⟩
          | false =>
            rw [Listing.rootPath_of_retainFolders hretain] at hroot
            obtain ⟨q, hq, hname⟩ := ItemPath.ofDisk?_of_not_isPlain hplain hroot
            exact ⟨q, hq, fun _ _ => hname⟩
      obtain ⟨q, hq, hname⟩ := hone
      refine ⟨item, p, q, rfl, rfl, ?_, hname⟩
      rw [hq]
      rfl

namespace OneFile

/-- The file in the folder by a path with a dot in front. -/
def dotted : DiskPath := ⟨[dotByte, slashByte, 0x64, slashByte, 0x66]⟩

/-- The path of the file inside an archive, by its name alone. -/
def name : ItemPath := ⟨"f", by decide, (PathFault.of?_eq_none_iff.1 rfl).2⟩

end OneFile

/-- With the default options, and by a plain path also with folders retained, all three calls add
the one file under one path. -/
theorem one_file_added_below_folder :
    let path := OneFile.dir.child OneFile.fileName
    (∀ item, DiskItem.find OneFile.host.files .follow path = .ok item → item.isDir = false) ∧
      (file path "").items {} OneFile.host = (paths [path]).items {} OneFile.host ∧
      (pathsAs [(path, "")]).items {} OneFile.host = (paths [path]).items {} OneFile.host ∧
      (file path "").items { retainFolders := true } OneFile.host =
        (paths [path]).items { retainFolders := true } OneFile.host ∧
      ((paths [path]).items {} OneFile.host).1 = .ok (ofListing [OneFile.file]) := by
  intro path
  have hitem : DiskItem.find OneFile.host.files .follow path = .ok OneFile.file.2 := rfl
  have hfile : ∀ item,
      DiskItem.find OneFile.host.files .follow path = .ok item → item.isDir = false := by
    intro item h
    rw [hitem] at h
    cases h
    rfl
  obtain ⟨has, -, hplain, -⟩ := one_file_added (o := {}) hfile
  obtain ⟨-, -, hretained, -⟩ := one_file_added (o := { retainFolders := true }) hfile
  exact ⟨hfile, hplain (.inl rfl), has, hretained (.inr rfl), rfl⟩

/-- With folders retained, and a dot in the path, the call for one file leaves out the folder that
the call for paths retains. -/
theorem one_file_added_without_folder :
    ((file OneFile.dotted "").items { retainFolders := true } OneFile.host).1 =
      .ok [⟨OneFile.name, .disk (.ofNode OneFile.dotted OneFile.node)⟩] ∧
    ((paths [OneFile.dotted]).items { retainFolders := true } OneFile.host).1 =
      .ok [⟨OneFile.file.1, .disk (.ofNode OneFile.dotted OneFile.node)⟩] :=
  ⟨rfl, rfl⟩

end Addition

end ArchiveUpdate
