import ArchiveUpdate.Proofs.DirectoryListing

/-!
# What is indexed was there

A new item comes from a file or a stream as it was when the item was added.  Whatever a change
brings was found in the world of that change: a disk item by looking at its path, a lent stream by
measuring it (`indexedIn_of_brings`).  It does not matter for what is no link whether links were
followed to find it (`status_of_linkStatus`).
-/

set_option autoImplicit false

namespace ArchiveUpdate

namespace FileSystem

section

variable {t : FileTree} {loc : Location}

/-- Steps that end at something other than a link lead there also if a link at their end is
followed. -/
theorem advance_following
    {onLink onLink' : Location → DiskPath → List Bytes → Except IoError Location}
    (hnode : ∀ target info, t.node? loc ≠ some (.link target info))
    (honLink : ∀ here target rest, onLink here target rest = .ok loc →
      onLink' here target rest = .ok loc) {here : Location} {steps : List Bytes}
    (h : advance t false onLink here steps = .ok loc) :
    advance t true onLink' here steps = .ok loc := by
  induction steps generalizing here with
  | nil => exact h
  | cons step rest ih =>
    simp only [advance] at h ⊢
    cases hhere : t.node? here with
    | none => simp [hhere] at h
    | some node =>
      cases node with
      | file data info => simp [hhere] at h
      | link target info => simp [hhere] at h
      | directory info =>
        simp only [hhere] at h ⊢
        split at h
        · rw [if_pos (by assumption)]
          exact ih h
        rw [if_neg (by assumption)]
        split at h
        · cases h
        rw [if_neg (by assumption)]
        split at h
        · rw [if_pos (by assumption)]
          exact ih h
        rw [if_neg (by assumption)]
        split at h
        · rw [if_pos (by assumption)]
          exact ih h
        rw [if_neg (by assumption)]
        split at h
        · cases h
        rw [if_neg (by assumption)]
        cases hname : FileName.ofBytes? step with
        | none => simp [hname] at h
        | some name =>
          simp only [hname] at h ⊢
          cases hfound : t.node? (here ++ [name]) with
          | none => simp [hfound] at h
          | some found =>
            cases found with
            | file data info =>
              simp only [hfound] at h ⊢
              exact ih h
            | directory info =>
              simp only [hfound] at h ⊢
              exact ih h
            | link target info =>
              simp only [hfound] at h ⊢
              split at h
              · cases h
                exact absurd hfound (hnode target info)
              · rw [if_neg (by simp)]
                exact honLink here target rest h

/-- A way that does not end in a link leads to the same place whether or not a link at its end is
followed. -/
theorem locate_following (hnode : ∀ target info, t.node? loc ≠ some (.link target info))
    {links : Nat} {start : Location} {steps : List Bytes}
    (h : locate t false links start steps = .ok loc) :
    locate t true links start steps = .ok loc := by
  induction links generalizing start steps with
  | zero => exact advance_following hnode (fun _ _ _ h => h) h
  | succ links ih => exact advance_following hnode (fun _ _ _ h => ih h) h

/-- Something is reached if the steps lead to a location and there is something at it. -/
theorem reachFrom_eq_ok_iff {followLast : Bool} {start : Location} {steps : List Bytes}
    {s : FileStatus} : reachFrom t followLast start steps = .ok s ↔
      ∃ loc, locate t followLast maxLinks start steps = .ok loc ∧ s.location = some loc ∧
        t.node? loc = some s.node := by
  obtain ⟨location, node⟩ := s
  simp only [reachFrom, bind_eq_ok_iff]
  refine exists_congr fun loc => and_congr_right fun _ => ?_
  cases t.node? loc with
  | none => simp [throw, throwThe, MonadExceptOf.throw]
  | some found => simp [pure, Except.pure, eq_comm]

/-- A path to something other than a link leads there also if links at its end are followed. -/
theorem status_of_linkStatus {fs : FileSystem} {path : DiskPath} {s : FileStatus}
    (h : fs.linkStatus path = .ok s) (hnode : s.node.target? = none) : fs.status path = .ok s := by
  have hfrom : ∀ {start steps}, reachFrom fs.tree false start steps = .ok s →
      reachFrom fs.tree true start steps = .ok s := by
    intro start steps hreach
    obtain ⟨loc, hlocate, hloc, hat⟩ := reachFrom_eq_ok_iff.1 hreach
    refine reachFrom_eq_ok_iff.2 ⟨loc, locate_following ?_ hlocate, hloc, hat⟩
    intro target info hlink
    rw [hlink] at hat
    rw [← Option.some.inj hat] at hnode
    cases hnode
  unfold linkStatus reach at h
  unfold status reach
  split at h
  · cases h
  rw [if_neg (by assumption)]
  split at h
  · cases h
  rw [if_neg (by assumption)]
  split at h
  · cases h
  rw [if_neg (by assumption)]
  split at h
  · rw [if_pos (by assumption)]
    exact hfrom h
  · rw [if_neg (by assumption)]
    cases hemerge : emerge fs.removed (steps path) with
    | error cause => simp [hemerge] at h
    | ok out =>
      obtain ⟨held, rest⟩ := out
      cases held with
      | nil =>
        simp only [hemerge] at h ⊢
        exact hfrom h
      | cons info held =>
        simp only [hemerge] at h ⊢
        exact h

end

/-- What a walk yields is what the visits yield. -/
theorem forall_mem_of_walkBelow {fs : FileSystem} {follow : Bool} {β : Type} {P : β → Prop}
    {visit : WalkEntry → Except UpdateError (Visit β)}
    (hvisit : ∀ e v, visit e = .ok v → ∀ b ∈ v.found, P b) {room : Nat} {dir : DiskPath}
    {names : List FileName} {trail : Trail} {l : List β}
    (h : fs.walkBelow follow visit room dir names trail = .ok l) : ∀ b ∈ l, P b := by
  induction room generalizing dir names trail l with
  | zero => cases h
  | succ room ih =>
    rw [walkBelow_visit, bind_eq_ok_iff] at h
    obtain ⟨entries, -, h⟩ := h
    intro b hb
    obtain ⟨⟨name, node⟩, -, part, hpart, hb⟩ := mem_of_gather h hb
    obtain ⟨met, -, hpart⟩ := bind_eq_ok_iff.1 hpart
    obtain ⟨v, hv, hrest⟩ := tour_eq_ok_iff.1 hpart
    split at hrest
    · obtain ⟨below, hbelow, rfl⟩ := hrest
      rw [List.mem_append] at hb
      exact hb.elim (hvisit met v hv b) (ih hbelow b)
    · rw [← hrest] at hb
      exact hvisit met v hv b hb

end FileSystem

/-- Looking at the path of the item in these files, links followed or not, finds this item. -/
def DiskItem.FoundIn (fs : FileSystem) (d : DiskItem) : Prop :=
  ∃ policy, DiskItem.find fs policy d.path = .ok d

/-- What was looked for and found is an item found on disk. -/
theorem DiskItem.foundIn_of_find {fs : FileSystem} {policy : SymlinkPolicy} {path : DiskPath}
    {d : DiskItem} (h : DiskItem.find fs policy path = .ok d) : d.FoundIn fs := by
  obtain ⟨s, -, hd⟩ := map_eq_ok_iff.1 h
  have hpath : d.path = path := by
    rw [← hd]
    rfl
  exact ⟨policy, by rw [hpath, h]⟩

namespace Listing

variable {fs : FileSystem} {dir : DiskPath} {base : Option ItemPath} {pattern : Option Wildcard}
  {root : DiskItem} {o : IndexOptions} {l : Listing}

/-- A second look at a walked entry finds an item on disk. -/
theorem foundIn_of_entryStatus {e : WalkEntry} {s : FileStatus} (h : entryStatus fs e = .ok s) :
    (DiskItem.ofNode e.path s.node).FoundIn fs := by
  have hreach : fs.reach e.path e.followed = .ok s := by
    simp only [entryStatus, FileSystem.status, FileSystem.linkStatus] at h
    cases hfollowed : e.followed <;> simp only [hfollowed, FileSystem.onWalk] at h <;>
      split at h <;> cases h <;> simpa using ‹_›
  refine ⟨if e.followed then .follow else .doNotFollow, map_eq_ok_iff.2 ⟨s, ?_, rfl⟩⟩
  rw [← hreach]
  cases e.followed <;> rfl

/-- The listing of an entry holds only items found on disk. -/
theorem foundIn_of_ofEntry {onlyFiles : Bool} {e : WalkEntry}
    (h : ofEntry fs base onlyFiles e = .ok l) : ∀ listed ∈ l, listed.2.FoundIn fs := by
  obtain ⟨s, hstatus, h⟩ := bind_eq_ok_iff.1 h
  have hone : ∀ (path : ItemPath), ∀ listed ∈ [(path, DiskItem.ofNode e.path s.node)],
      listed.2.FoundIn fs := by
    intro path listed hlisted
    rw [List.mem_singleton.1 hlisted]
    exact foundIn_of_entryStatus hstatus
  split at h
  · cases h
    exact List.forall_mem_nil _
  · obtain ⟨found, -, h⟩ := bind_eq_ok_iff.1 h
    cases found with
    | none =>
      cases h
      exact List.forall_mem_nil _
    | some relative =>
      cases base with
      | none =>
        cases h
        exact hone relative
      | some base =>
        obtain ⟨path, -, h⟩ := bind_eq_ok_iff.1 h
        cases h
        exact hone path

/-- The listing of what lies below a directory holds only items found on disk. -/
theorem foundIn_of_below (h : below fs dir base pattern o = .ok l) :
    ∀ listed ∈ l, listed.2.FoundIn fs := by
  have hvisit : ∀ e v, visit fs base pattern o e = .ok v →
      ∀ listed ∈ v.found, listed.2.FoundIn fs := by
    intro e v hv
    obtain ⟨name, -, hv⟩ := bind_eq_ok_iff.1 hv
    split at hv
    · obtain ⟨found, hfound, hv⟩ := bind_eq_ok_iff.1 hv
      cases hv
      exact foundIn_of_ofEntry hfound
    · cases hv
      exact List.forall_mem_nil _
  exact FileSystem.forall_mem_of_walkBelow hvisit h

/-- A directory in front of its listing adds to it an item found on disk. -/
theorem foundIn_of_append {own : Listing} (hroot : root.FoundIn fs)
    (hown : ∀ listed ∈ own, listed.2 = root)
    (h : (do let rest ← below fs dir base pattern o; pure (own ++ rest)) = .ok l) :
    ∀ listed ∈ l, listed.2.FoundIn fs := by
  obtain ⟨rest, hrest, h⟩ := bind_eq_ok_iff.1 h
  cases h
  intro listed hlisted
  rcases List.mem_append.1 hlisted with hlisted | hlisted
  · rw [hown listed hlisted]
    exact hroot
  · exact foundIn_of_below hrest listed hlisted

/-- The listing of a directory holds only items found on disk. -/
theorem foundIn_of_ofDirectory {filter : String} (h : ofDirectory fs dir filter o = .ok l) :
    ∀ listed ∈ l, listed.2.FoundIn fs := by
  obtain ⟨root, hroot, h⟩ := bind_eq_ok_iff.1 h
  have hroot := DiskItem.foundIn_of_find (onDisk_eq_ok_iff.1 hroot)
  cases hdir : root.isDir with
  | false =>
    rw [hdir] at h
    cases h
  | true =>
    rw [hdir] at h
    obtain ⟨pattern, -, h⟩ := bind_eq_ok_iff.1 h
    obtain ⟨base, h⟩ : ∃ base, (do
        let rest ← below fs dir base pattern o
        pure ((if pattern.isNone && !o.onlyFiles then base.toList.map (·, root) else []) ++ rest)) =
          .ok l := by
      dsimp only at h
      split at h
      · obtain ⟨base, -, h⟩ := bind_eq_ok_iff.1 h
        exact ⟨base, h⟩
      · split at h <;>
        · obtain ⟨base, -, h⟩ := bind_eq_ok_iff.1 h
          exact ⟨base, h⟩
    refine foundIn_of_append hroot ?_ h
    intro listed hlisted
    split at hlisted
    · obtain ⟨path, -, rfl⟩ := List.mem_map.1 hlisted
      rfl
    · cases hlisted

/-- The listing of whatever is at a path holds only items found on disk. -/
theorem foundIn_of_ofPath {given : Option ItemPath} (h : ofPath fs dir given o = .ok l) :
    ∀ listed ∈ l, listed.2.FoundIn fs := by
  obtain ⟨root, hroot, h⟩ := bind_eq_ok_iff.1 h
  have hroot := DiskItem.foundIn_of_find (onDisk_eq_ok_iff.1 hroot)
  cases hdir : root.isDir with
  | false =>
    rw [hdir] at h
    obtain ⟨path, rfl⟩ : ∃ path, l = [(path, root)] := by
      dsimp only at h
      split at h
      · cases h
        exact ⟨_, rfl⟩
      · split at h <;>
        · obtain ⟨_ | path, -, h⟩ := bind_eq_ok_iff.1 h <;> cases h
          exact ⟨path, rfl⟩
    intro listed hlisted
    rw [List.mem_singleton.1 hlisted]
    exact hroot
  | true =>
    rw [hdir] at h
    obtain ⟨base, h⟩ : ∃ base : Option ItemPath, (if o.recursive then do
          let rest ← below fs dir base none { o with filterPolicy := .include }
          pure ((if o.onlyFiles then [] else base.toList.map (·, root)) ++ rest)
        else pure []) = .ok l := by
      dsimp only at h
      split at h
      · obtain ⟨base, -, h⟩ := bind_eq_ok_iff.1 h
        exact ⟨base, h⟩
      · split at h <;>
        · obtain ⟨base, -, h⟩ := bind_eq_ok_iff.1 h
          exact ⟨base, h⟩
    split at h
    · refine foundIn_of_append hroot ?_ h
      intro listed hlisted
      split at hlisted
      · cases hlisted
      · obtain ⟨path, -, rfl⟩ := List.mem_map.1 hlisted
        rfl
    · cases h
      exact List.forall_mem_nil _

end Listing

/-- The source was indexed in this world: a disk item was found at its path, a lent stream was
measured; buffers and stored items are the same in every world. -/
def ItemSource.IndexedIn (h : Host) : ItemSource → Prop
  | disk d => d.FoundIn h.files
  | stream item => (StreamItem.measure item.id h).1 = .ok item
  | buffer _ | renamed _ => True

namespace Addition

/-- Items made of a listing record what is on disk. -/
theorem indexedIn_of_ofListing {h : Host} {l : Listing}
    (hl : ∀ listed ∈ l, listed.2.FoundIn h.files) :
    ∀ item ∈ ofListing l, item.source.IndexedIn h := by
  intro item hitem
  obtain ⟨listed, hlisted, rfl⟩ := List.mem_map.1 hitem
  exact hl listed hlisted

/-- The file at a path is an item found on disk. -/
theorem foundIn_of_fileAt {fs : FileSystem} {policy : SymlinkPolicy} {path : DiskPath}
    {d : DiskItem} (h : fileAt fs policy path = .ok d) : d.FoundIn fs := by
  obtain ⟨found, hfound, h⟩ := bind_eq_ok_iff.1 h
  split at h
  · cases h
  · cases h
    exact DiskItem.foundIn_of_find (Listing.onDisk_eq_ok_iff.1 hfound)

/-- An item made of a stream records what the stream was measured to hold. -/
theorem indexedIn_of_measure {id : Nat} {h : Host} {item : StreamItem}
    (hmeasure : (StreamItem.measure id h).1 = .ok item) : (ItemSource.stream item).IndexedIn h := by
  have hid : item.id = id := by
    simp only [StreamItem.measure] at hmeasure
    split at hmeasure
    · cases hmeasure
    · cases hmeasure
      rfl
  show (StreamItem.measure item.id h).1 = .ok item
  rw [hid, hmeasure]

/-- Whatever a call adds was indexed in the world of the call. -/
theorem indexedIn_of_items {addition : Addition} {o : IndexOptions} {h : Host} {new : List NewItem}
    (hok : (addition.items o h).1 = .ok new) : ∀ item ∈ new, item.source.IndexedIn h := by
  cases addition with
  | file path name =>
    obtain ⟨d, hd, hnew⟩ := bind_eq_ok_iff.1 hok
    obtain ⟨place, -, hnew⟩ := bind_eq_ok_iff.1 hnew
    cases hnew
    intro item hitem
    rw [List.mem_singleton.1 hitem]
    exact foundIn_of_fileAt hd
  | buffer data name =>
    obtain ⟨path, -, rfl⟩ := map_eq_ok_iff.1 hok
    intro item hitem
    rw [List.mem_singleton.1 hitem]
    trivial
  | stream id name =>
    simp only [items] at hok
    split at hok
    · cases hok
    · obtain ⟨item, hitem, rfl⟩ := map_eq_ok_iff.1 hok
      intro new hnew
      rw [List.mem_singleton.1 hnew]
      exact indexedIn_of_measure (Listing.onDisk_eq_ok_iff.1 hitem)
  | directory path =>
    obtain ⟨l, hl, rfl⟩ := map_eq_ok_iff.1 hok
    exact indexedIn_of_ofListing (Listing.foundIn_of_ofDirectory hl)
  | files path filter =>
    obtain ⟨l, hl, rfl⟩ := map_eq_ok_iff.1 hok
    exact indexedIn_of_ofListing (Listing.foundIn_of_ofDirectory hl)
  | paths ps =>
    obtain ⟨l, hl, rfl⟩ := map_eq_ok_iff.1 hok
    apply indexedIn_of_ofListing
    intro listed hlisted
    obtain ⟨path, -, part, hpart, hlisted⟩ := mem_of_gather hl hlisted
    exact Listing.foundIn_of_ofPath hpart listed hlisted
  | pathsAs places =>
    obtain ⟨l, hl, rfl⟩ := map_eq_ok_iff.1 hok
    apply indexedIn_of_ofListing
    intro listed hlisted
    obtain ⟨⟨path, given⟩, -, part, hpart, hlisted⟩ := mem_of_gather hl hlisted
    obtain ⟨name, -, hpart⟩ := bind_eq_ok_iff.1 hpart
    exact Listing.foundIn_of_ofPath hpart listed hlisted

end Addition

/-- Whatever a change brings was indexed in the world of the change. -/
theorem Change.indexedIn_of_brings {α : Type} [Archive α] {a : α} {o : IndexOptions} {h : Host}
    {new : List NewItem} {c : Change} (hbrings : c.Brings a o h new) :
    ∀ item ∈ new, item.source.IndexedIn h := by
  cases c with
  | add addition => exact Addition.indexedIn_of_items hbrings
  | deleteItem i policy | deletePath path policy =>
    rw [show new = [] from hbrings]
    exact List.forall_mem_nil _
  | renameItem i path =>
    obtain ⟨p, -, rfl⟩ := hbrings
    simp [ItemSource.IndexedIn]
  | renamePath old path =>
    obtain ⟨i, p, -, -, rfl⟩ := hbrings
    simp [ItemSource.IndexedIn]
  | replaceBuffer i data =>
    obtain ⟨p, -, rfl⟩ := hbrings
    simp [ItemSource.IndexedIn]
  | replaceFile i path =>
    obtain ⟨p, d, -, hd, rfl⟩ := hbrings
    simpa [ItemSource.IndexedIn] using Addition.foundIn_of_fileAt hd
  | replaceStream i id =>
    obtain ⟨p, item, -, hmeasure, rfl⟩ := hbrings
    simpa using Addition.indexedIn_of_measure hmeasure

end ArchiveUpdate
