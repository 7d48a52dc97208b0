import ArchiveUpdate.Proofs.OpenedArchive
import ArchiveUpdate.Proofs.ReadContents

/-!
# Sources do not get in each other's way

Reading a file moves the time of its last access, and reading a lent stream moves that stream.  That
is all that opening, reading and giving back a source does to the world around (`Host.Alike`), so an
item offers the same whatever other sources were read before (`ItemSource.offer_eq`).
-/

set_option autoImplicit false

namespace ArchiveUpdate

namespace FileTree

/-- After a file was read everything lies where it lay, and only that file carries another time. -/
theorem node?_touch (t : FileTree) (loc here : Location) (now : UnixTime) :
    (t.touch loc now).node? here = (t.node? here).map fun
      | .file data info => .file data (if here = loc then info.touch now else info)
      | node => node := by
  obtain ⟨nodes, distinct⟩ := t
  simp only [node?, touch]
  clear distinct
  split
  · rfl
  · induction nodes with
    | nil => rfl
    | cons entry nodes ih =>
      obtain ⟨held, node⟩ := entry
      simp only [List.map_cons, List.lookup_cons]
      by_cases hhere : here = held
      · subst hhere
        cases node <;> by_cases hloc : here = loc <;> simp [hloc, Node.touch]
      · rw [beq_eq_false_iff_ne.2 hhere]
        exact ih

end FileTree

namespace FileSystem

variable {t : FileTree} {loc : Location} {now : UnixTime}

/-- Touching a file does not bear on where a path leads, whatever is done at a link. -/
theorem advance_touch (followLast : Bool)
    (onLink : Location → DiskPath → List Bytes → Except IoError Location) (here : Location)
    (steps : List Bytes) : advance (t.touch loc now) followLast onLink here steps =
      advance t followLast onLink here steps := by
  induction steps generalizing here with
  | nil => rfl
  | cons step rest ih =>
    -- On the way only the sort of a node matters, where a link leads and who may pass a directory.
    simp only [advance, FileTree.node?_touch, ih]
    cases t.node? here with
    | none => rfl
    | some node =>
      cases node with
      | file data info => rfl
      | link target info => rfl
      | directory info =>
        simp only [Option.map_some]
        cases FileName.ofBytes? step with
        | none => rfl
        | some name =>
          dsimp only
          cases t.node? (here ++ [name]) with
          | none => rfl
          | some found => cases found <;> rfl

/-- Touching a file does not bear on where a path leads. -/
theorem locate_touch (followLast : Bool) (links : Nat) (start : Location) (steps : List Bytes) :
    locate (t.touch loc now) followLast links start steps =
      locate t followLast links start steps := by
  induction links generalizing start steps with
  | zero => exact advance_touch followLast _ start steps
  | succ links ih =>
    simp only [locate, advance_touch, ih]

/-- What a path leads to is where it was, and only the file that was read carries another time. -/
theorem reach_touch (fs : FileSystem) (loc : Location) (now : UnixTime) (path : DiskPath)
    (followLast : Bool) :
    { fs with tree := fs.tree.touch loc now }.reach path followLast =
      (fs.reach path followLast).map fun
        | ⟨location, .file data info⟩ =>
          ⟨location, .file data (if location = some loc then info.touch now else info)⟩
        | s => s := by
  have hfrom : ∀ start steps, reachFrom (fs.tree.touch loc now) followLast start steps =
      (reachFrom fs.tree followLast start steps).map fun
        | ⟨location, .file data info⟩ =>
          ⟨location, .file data (if location = some loc then info.touch now else info)⟩
        | s => s := by
    intro start steps
    simp only [reachFrom, locate_touch, FileTree.node?_touch]
    cases locate fs.tree followLast maxLinks start steps with
    | error e => rfl
    | ok location =>
      cases hnode : fs.tree.node? location with
      | none => simp [hnode, Except.map, bind, Except.bind, throw, throwThe, MonadExceptOf.throw]
      | some node => cases node <;> simp [hnode, Except.map, bind, Except.bind, pure, Except.pure]
  unfold reach
  simp only [hfrom]
  split
  · rfl
  split
  · rfl
  split
  · rfl
  split
  · rfl
  · split <;> rfl

/-- Reading one file changes nothing about what can be opened. -/
theorem openFile_touch (fs : FileSystem) (loc : Location) (now : UnixTime) (path : DiskPath) :
    { fs with tree := fs.tree.touch loc now }.openFile path = fs.openFile path := by
  simp only [openFile, status, reach_touch]
  cases fs.reach path true with
  | error e => rfl
  | ok s =>
    obtain ⟨location, node⟩ := s
    cases node with
    | file data info =>
      have hreadable : (info.touch now).readable = info.readable := by
        unfold NodeInfo.touch
        split <;> rfl
      by_cases hloc : location = some loc
      · simp only [Except.map, bind, Except.bind, pure, Except.pure, Node.info, if_pos hloc,
          hreadable]
        rfl
      · simp only [Except.map, bind, Except.bind, pure, Except.pure, if_neg hloc]
    | directory info => rfl
    | link target info => rfl

end FileSystem

namespace Host

/-- Two worlds in which the same can be read: behind every path, and from every lent stream but
those that are spent. -/
structure Alike (spent : Nat → Prop) (h h' : Host) : Prop where
  openFile : ∀ path, h'.files.openFile path = h.files.openFile path
  slot : ∀ id, ¬spent id → h'.streams[id]? = h.streams[id]?

variable {spent : Nat → Prop} {h h₁ h₂ : Host}

namespace Alike

/-- A world is like itself. -/
theorem refl (h : Host) : h.Alike spent h := ⟨fun _ => rfl, fun _ _ => rfl⟩

/-- What can still be read after two changes can be read after both. -/
theorem trans (h₁₂ : h.Alike spent h₁) (h₂₃ : h₁.Alike spent h₂) : h.Alike spent h₂ :=
  ⟨fun path => (h₂₃.openFile path).trans (h₁₂.openFile path),
    fun id hid => (h₂₃.slot id hid).trans (h₁₂.slot id hid)⟩

/-- With more streams spent, worlds are alike in no more than before. -/
theorem mono {spent' : Nat → Prop} (halike : h.Alike spent h₁)
    (hmore : ∀ id, spent id → spent' id) : h.Alike spent' h₁ :=
  ⟨halike.openFile, fun id hid => halike.slot id fun hspent => hid (hmore id hspent)⟩

end Alike

/-- Touching a file leaves all that can be read. -/
theorem alike_touch (h : Host) (loc : Location) : h.Alike spent (h.touch loc) :=
  ⟨fun path => h.files.openFile_touch loc h.now.unix path, fun _ _ => rfl⟩

/-- Putting a stream into its slot spends that stream only. -/
theorem alike_setSlot (h : Host) (id : Nat) (slot : StreamSlot) :
    h.Alike (some id = some ·) (h.setSlot id slot) :=
  ⟨fun _ => rfl, fun _ hid => List.getElem?_set_ne fun heq => hid (congrArg some heq)⟩

end Host

namespace Reader

/-- The lent stream that is read, if it is one. -/
def stream? : Reader → Option Nat
  | stream id _ => some id
  | settled _ | file .. => none

/-- Reading from a source leaves it the source that it is. -/
theorem stream?_read (r : Reader) (h : Host) (n : Nat) : (r.read h n).2.1.stream? = r.stream? := by
  cases r with
  | settled content => rfl
  | file loc content => rfl
  | stream id left =>
    simp only [read]
    split
    · rfl
    · split <;> rfl

/-- Reading from a source spends no stream but its own. -/
theorem alike_read (r : Reader) (h : Host) (n : Nat) :
    h.Alike (r.stream? = some ·) (r.read h n).2.2 := by
  cases r with
  | settled content => exact .refl h
  | file loc content => exact h.alike_touch loc
  | stream id left =>
    simp only [read, stream?]
    split
    · exact .refl h
    · split <;> exact h.alike_setSlot id _

/-- Closing a source spends no stream but its own. -/
theorem alike_close (r : Reader) (h : Host) : h.Alike (r.stream? = some ·) (r.close h) := by
  cases r with
  | settled content => exact .refl h
  | file loc content => exact .refl h
  | stream id left =>
    simp only [close, stream?]
    split
    · exact .refl h
    · exact h.alike_setSlot id _

end Reader

namespace Reader

/-- What is still to come depends on no lent stream but the one that is read. -/
theorem content_eq (r : Reader) {spent : Nat → Prop} {h h' : Host} (halike : h.Alike spent h')
    (hfresh : ∀ id, r.stream? = some id → ¬spent id) : r.content h' = r.content h := by
  cases r with
  | settled content => rfl
  | file loc content => rfl
  | stream id left => simp only [content, halike.slot id (hfresh id rfl)]

end Reader

/-- No item on disk is read from a lent stream. -/
theorem DiskItem.stream?_of_openData {d : DiskItem} {fs : FileSystem} {r : Reader}
    (hopen : d.openData fs = .ok (some r)) : r.stream? = none := by
  unfold openData at hopen
  split at hopen
  · cases hopen
  · split at hopen
    · cases hopen
      rfl
    · cases hfile : fs.openFile d.path with
      | error e => simp [hfile, Except.map] at hopen
      | ok found =>
        obtain ⟨_ | loc, content⟩ := found <;>
        · simp only [hfile, Except.map, Except.ok.injEq, Option.some.injEq] at hopen
          rw [← hopen]
          rfl

/-- What there is to read when a source is opened: a failure, nothing, or a content. -/
abbrev Offer := Except IoError (Option Content)

namespace Offer

/-- How a request for the data is answered. -/
def answer : Offer → DataAnswer
  | .error _ => .unavailable
  | .ok none => .noData
  | .ok (some _) => .stream

/-- What can be read afterwards. -/
def content : Offer → Content
  | .ok (some content) => content
  | .ok none | .error _ => ⟨[], none⟩

/-- Whoever reads on to the end has gathered what was offered. -/
theorem gathered_eq {offer : Offer} {reads : List Read} (hdelivers : offer.content.Delivers reads)
    (hends : offer.answer = .stream → Ends reads) : gathered reads = offer.content := by
  match offer, hdelivers, hends with
  | .ok (some c), hdelivers, hends => exact Content.gathered_eq_of_ends hdelivers (hends rfl)
  | .ok none, hdelivers, _ => exact Content.gathered_of_ended hdelivers
  | .error e, hdelivers, _ => exact Content.gathered_of_ended hdelivers

end Offer

namespace ItemSource

/-- The lent stream that provides the data, if one does. -/
def stream? : ItemSource → Option Nat
  | stream item => some item.id
  | disk _ | buffer _ | renamed _ => none

variable {α : Type} [Archive α] {source : ItemSource} {a a' : α} {h h' : Host}
  {spent : Nat → Prop}

/-- What the source offers. -/
def offer (source : ItemSource) (a : α) (h : Host) : Offer :=
  match source.openData a h with
  | (.error e, _, _) => .error e
  | (.ok reader?, _, h) => .ok (reader?.map (·.content h))

/-- Opening a source spends no stream but its own. -/
theorem alike_openData (source : ItemSource) (a : α) (h : Host) :
    h.Alike (source.stream? = some ·) (source.openData a h).2.2 := by
  cases source with
  | disk d => exact .refl h
  | buffer b => exact .refl h
  | renamed j => exact .refl h
  | stream item =>
    simp only [openData, StreamItem.openData, stream?]
    split
    · exact .refl h
    · split <;> exact h.alike_setSlot item.id _

/-- Of the lent streams only that of the source is read when it is opened. -/
theorem stream?_of_openData {r : Reader} {id : Nat}
    (hopen : (source.openData a h).1 = .ok (some r)) (hr : r.stream? = some id) :
    source.stream? = some id := by
  cases source with
  | disk d =>
    rw [DiskItem.stream?_of_openData hopen] at hr
    cases hr
  | buffer b =>
    cases hopen
    cases hr
  | renamed j =>
    simp only [openData] at hopen
    cases hitem : (Archive.openItem a j).1 <;> rw [hitem] at hopen <;> cases hopen
    cases hr
  | stream item =>
    simp only [openData, StreamItem.openData] at hopen
    split at hopen
    · cases hopen
    · split at hopen <;> cases hopen
      exact hr

/-- A source offers the same whatever stored items were opened before, if that changes none of the
archive's answers, and whatever happened to the world, as long as the same can be read there. -/
theorem offer_eq (harchive : ∀ i, (Archive.openItem a' i).1 = (Archive.openItem a i).1)
    (hhost : h.Alike spent h') (hfresh : ∀ id, source.stream? = some id → ¬spent id) :
    source.offer a' h' = source.offer a h := by
  cases source with
  | disk d =>
    have hopen : d.openData h'.files = d.openData h.files := by
      simp only [DiskItem.openData, hhost.openFile]
    simp only [offer, openData, hopen]
    cases hreader : d.openData h.files with
    | error e => rfl
    | ok reader? =>
      cases reader? with
      | none => rfl
      | some r =>
        have hnone := DiskItem.stream?_of_openData hreader
        have hcontent := r.content_eq hhost (by simp [hnone])
        simp only [Option.map_some, hcontent]
  | buffer b => rfl
  | renamed j =>
    simp only [offer, openData, harchive]
    cases (Archive.openItem a j).1 <;> rfl
  | stream item =>
    have hslot : h'.streams[item.id]? = h.streams[item.id]? := hhost.slot _ (hfresh _ rfl)
    have hset : ∀ slot, (Reader.stream item.id item.size).content (h'.setSlot item.id slot) =
        (Reader.stream item.id item.size).content (h.setSlot item.id slot) := by
      intro slot
      simp only [Reader.content, Host.setSlot, List.getElem?_set_self', hslot]
    simp only [offer, openData, StreamItem.openData, List.getD_eq_getElem?_getD, hslot]
    generalize h.streams[item.id]?.getD default = slot
    cases slot.busy with
    | true => rfl
    | false =>
      rcases slot.stream.seek item.start with ⟨_ | position, s⟩
      · rfl
      · simp only [Bool.false_eq_true, if_false, Except.map, Option.map_some, hset]

end ItemSource

namespace OutputItem

variable {α : Type} [Archive α]

/-- Where the data of the item comes from. -/
def source : OutputItem → ItemSource
  | kept i => .renamed i
  | added new => new.source

/-- An output item is opened by opening its source. -/
theorem openData_eq (item : OutputItem) (a : α) (h : Host) :
    item.openData a h = item.source.openData a h := by
  cases item <;> rfl

end OutputItem

end ArchiveUpdate
