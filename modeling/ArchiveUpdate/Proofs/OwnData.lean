import ArchiveUpdate.Proofs.IntactPositions

/-!
# The data of an item

What there is to read of an item is said here without opening it: a stored item has what the archive
delivers, an object on disk its content or the text of its target, a buffer its bytes, and a lent
stream the bytes from where it was lent (`ItemSource.ownData`).  Opening a source offers exactly
that (`ItemSource.offer_eq_ownData`), and a position of an active run hands it out, whatever the
pieces in which it is read (`Session.GivesData`).
-/

set_option autoImplicit false

namespace ArchiveUpdate

/-- The data of a stored item: what the archive delivers for it. -/
def Archive.storedData {α : Type} [Archive α] (a : α) (j : StoredIndex) : Offer :=
  (Archive.openItem a j).1.map some

/-- The data of an object on disk, as the files are: a directory has none, a link that is an item of
its own has the text of its target, and anything else what is in the file at its path. -/
def DiskItem.ownData (d : DiskItem) (fs : FileSystem) : Offer :=
  if d.isDir then .ok none
  else match d.linkTarget with
    | some target => .ok (some ⟨Utf8.encode target.text.toList, none⟩)
    | none => (fs.openFile d.path).map fun found => some found.2

/-- The data of a lent stream: as many bytes from the place where it was lent as were there then.
There is a failure instead while someone reads it or if it cannot be moved to that place. -/
def StreamItem.ownData (item : StreamItem) (h : Host) : Offer :=
  match h.streams[item.id]? with
  | none => .ok (some ⟨[], none⟩)
  | some slot =>
    if slot.busy then .error busy
    else if slot.stream.failingSeek = some slot.stream.seeks then .error slot.stream.fault
    else .ok (some ({ slot.stream with position := item.start }.content item.size))

namespace StreamItem

/-- Opening a lent stream offers the bytes from the place where it was lent. -/
theorem offer_eq_ownData {α : Type} [Archive α] (item : StreamItem) (a : α) (h : Host) :
    (ItemSource.stream item).offer a h = item.ownData h := by
  simp only [ItemSource.offer, ItemSource.openData, openData, ownData, List.getD_eq_getElem?_getD]
  cases hslot : h.streams[item.id]? with
  | none =>
    -- A number without a stream stands for an empty one, which can be moved anywhere.
    have hnone : ∀ slot, (Reader.stream item.id item.size).content (h.setSlot item.id slot) =
        ⟨[], none⟩ := by
      intro slot
      simp only [Reader.content, Host.setSlot, List.getElem?_set_self', hslot]
      rfl
    exact congrArg (fun content => Except.ok (some content)) (hnone _)
  | some slot =>
    simp only [Option.getD_some]
    cases slot.busy with
    | true => rfl
    | false =>
      simp only [Bool.false_eq_true, if_false, ByteStream.seek]
      by_cases hfails : slot.stream.failingSeek = some slot.stream.seeks
      · simp only [if_pos hfails]
        rfl
      · have hcontent := Reader.content_of_slot (Host.streams_setSlot hslot
          ⟨{ slot.stream with seeks := slot.stream.seeks + 1, position := item.start }, true⟩)
        simp only [if_neg hfails, Except.map, Option.map_some, hcontent]
        rfl

end StreamItem

namespace ItemSource

variable {α : Type} [Archive α]

/-- The data of an item, by where the item comes from; a renamed item has the data of the stored
one. -/
def ownData (source : ItemSource) (a : α) (h : Host) : Offer :=
  match source with
  | disk d => d.ownData h.files
  | buffer b => .ok (some ⟨b.data, none⟩)
  | stream item => item.ownData h
  | renamed j => Archive.storedData a j

/-- Opening a source offers its data and nothing else. -/
theorem offer_eq_ownData (source : ItemSource) (a : α) (h : Host) :
    source.offer a h = source.ownData a h := by
  cases source with
  | disk d =>
    simp only [offer, openData, ownData, DiskItem.openData, DiskItem.ownData]
    cases d.isDir with
    | true => rfl
    | false =>
      cases d.linkTarget with
      | some target => rfl
      | none => rcases h.files.openFile d.path with e | ⟨_ | location, content⟩ <;> rfl
  | buffer b => rfl
  | stream item => exact item.offer_eq_ownData a h
  | renamed j =>
    simp only [offer, openData, ownData, Archive.storedData]
    cases (Archive.openItem a j).1 <;> rfl

end ItemSource

namespace Session

variable {α ρ : Type} [Archive α] [Reporter ρ]

/-- A request for the data of a position is answered with this data, unless the run is to be
cancelled or the source is on record as failed.  The reads that follow take it from front to back,
come to its end if there are enough of them, and have then gathered all of it. -/
structure GivesData (s : Session α ρ) (i : OutputIndex) (data : Offer) : Prop where
  cancelled : s.wantsStop = true → (s.answer (.data i)).1 = .error .cancelled
  failed : s.wantsStop = false → (s.failures.get? i).isSome →
    (s.answer (.data i)).1 = .ok .unavailable
  answered : s.wantsStop = false → s.failures.get? i = none →
    (s.answer (.data i)).1 = .ok data.answer
  read : s.wantsStop = false → s.failures.get? i = none →
    ∀ course, (s.answer (.data i)).2.Spared course →
      let reads := leadingReads ((s.answer (.data i)).2.exchanges course)
      data.content.Delivers reads ∧ (Ends reads → gathered reads = data.content) ∧
        ((∀ read ∈ reads, 0 < read.1) → data.content.bytes.length < reads.length → Ends reads)

/-- A position of an active run gives the data of the item that is there, as the archive and the
world are once what was being read is given back. -/
theorem givesData {s : Session α ρ} {i : OutputIndex} {item : OutputItem}
    (hphase : s.phase = .active) (hfits : s.total ≤ maxItems)
    (hat : s.outputs[i.val]? = some item) :
    s.GivesData i (item.source.ownData s.archive s.release.host) := by
  have hanswer := answer_data hphase hfits hat
  obtain ⟨hreply, hremaining, -, -⟩ := openSource_offer s.givesBack_asked.reading i item
  rw [archive_asked, host_asked, ItemSource.offer_eq_ownData] at hreply hremaining
  have hopened : s.wantsStop = false → s.failures.get? i = none →
      s.answer (.data i) = (.ok (s.asked.openSource i item).1, (s.asked.openSource i item).2) := by
    intro hgo hfresh
    rw [hanswer, hgo, hfresh]
    rfl
  refine ⟨?_, ?_, ?_, ?_⟩
  · intro hstop
    rw [hanswer, if_pos hstop]
  · intro hgo hknown
    rw [hanswer, hgo, if_neg Bool.false_ne_true, if_pos hknown]
  · intro hgo hfresh
    rw [hopened hgo hfresh, hreply]
  · intro hgo hfresh course hspared
    have hdelivers := delivers_of_spared hspared
    rw [hopened hgo hfresh, hremaining] at hdelivers
    rw [hopened hgo hfresh]
    exact ⟨hdelivers, Content.gathered_eq_of_ends hdelivers,
      Content.ends_of_length_lt hdelivers⟩

end Session

end ArchiveUpdate
