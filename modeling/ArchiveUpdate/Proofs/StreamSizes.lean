import ArchiveUpdate.Proofs.Calls
import ArchiveUpdate.Proofs.IndexedSources
import ArchiveUpdate.Proofs.IntactPositions
import ArchiveUpdate.Proofs.LossyText

/-!
# The size of an item is the number of its bytes

What an item reports as its size was noted when the item was indexed, and its data is opened later.
If nothing has gone wrong in between (`ItemSource.Unharmed`), whoever reads the data to its end gets
as many bytes as the size says, whatever the source is (`reads_as_many_bytes_as_size`).  There is
one exception: the data of a link that is not followed is its target as text, while its size is that
of the target itself.  These are the same if the target is UTF-8; if not, the data may be longer
(`link_longer_than_size`).
-/

set_option autoImplicit false

namespace ArchiveUpdate

/-- The path leads to a file with this data. -/
def FileSystem.Holds (fs : FileSystem) (path : DiskPath) (data : Bytes) : Prop :=
  ∃ location info, fs.status path = .ok ⟨location, .file data info⟩

/-- The archive answers as one of decoded items does. -/
structure Archive.ReadsAs {α : Type} [Archive α] (a : α) (m : MemoryArchive) : Prop where
  property : ∀ i kind, Archive.property a i kind = Archive.property m i kind
  openItem : ∀ i, (Archive.openItem a i).1 = (Archive.openItem m i).1

/-- An archive of decoded items answers as itself. -/
theorem MemoryArchive.readsAs_self (m : MemoryArchive) : Archive.ReadsAs m m :=
  ⟨fun _ _ => rfl, fun _ => rfl⟩

namespace ItemSource

/-- The target of the link that is not followed, if that is the source. -/
def linkTarget? : ItemSource → Option DiskPath
  | disk d => d.linkTarget
  | buffer _ | stream _ | renamed _ => none

/-- The source is healthy, and what is read of it is what it was before.  The path of a file leads
to the same data; a link needs nothing, as its target was noted.  A lent stream ended before where
its data ends, holds the same data, and no read fails in front of the end. -/
def Unharmed (before now : Host) : ItemSource → Prop
  | disk d => d.linkTarget = none →
    ∀ data, before.files.Holds d.path data → now.files.Holds d.path data
  | stream item => ∃ slot slot', before.streams[item.id]? = some slot ∧
    now.streams[item.id]? = some slot' ∧ slot.stream.reportedEnd = slot.stream.data.length ∧
    slot'.stream.data = slot.stream.data ∧
    ∀ limit, slot'.stream.failingRead = some limit → slot'.stream.data.length ≤ limit
  | buffer _ | renamed _ => True

/-- What is offered goes with a size: it can be read without a failure, and it has that many bytes
unless it is the target of a link as text. -/
structure Fits (source : ItemSource) (size : Nat) (c : Content) : Prop where
  healthy : c.fault = none
  data : source.linkTarget? = none → c.bytes.length = size
  link : ∀ target, source.linkTarget? = some target →
    c.bytes = Utf8.encode target.text.toList ∧ target.bytes.length = size

end ItemSource

namespace DiskItem

variable {d : DiskItem} {fs before : FileSystem} {c : Content}

/-- What was found at the path of an item. -/
theorem FoundIn.node (h : d.FoundIn before) : ∃ follow s, before.reach d.path follow = .ok s ∧
    d.isDir = s.node.isDirectory ∧ d.linkTarget = s.node.target? ∧ d.size = s.node.size := by
  obtain ⟨policy, hfind⟩ := h
  obtain ⟨s, hreach, hd⟩ := map_eq_ok_iff.1 hfind
  refine ⟨policy.follows, s, hreach, ?_⟩
  rw [← hd]
  exact ⟨rfl, rfl, rfl⟩

/-- A directory on disk has no size. -/
theorem FoundIn.size_of_isDir (h : d.FoundIn before) (hdir : d.isDir = true) : d.size = 0 := by
  obtain ⟨follow, s, -, hisDir, -, hsize⟩ := h.node
  rw [hdir] at hisDir
  rw [hsize]
  cases hnode : s.node with
  | directory info => rfl
  | file data info => simp [hnode, Node.isDirectory] at hisDir
  | link target info => simp [hnode, Node.isDirectory] at hisDir

/-- An item that is neither a directory nor a link is a file, whose data is as long as it says. -/
theorem FoundIn.holds (h : d.FoundIn before) (hfile : d.isDir = false)
    (hlink : d.linkTarget = none) : ∃ data, before.Holds d.path data ∧ d.size = data.length := by
  obtain ⟨follow, ⟨location, node⟩, hreach, hisDir, htarget, hsize⟩ := h.node
  rw [hlink] at htarget
  have hstatus : before.status d.path = .ok ⟨location, node⟩ := by
    cases follow with
    | true => exact hreach
    | false => exact FileSystem.status_of_linkStatus hreach htarget.symm
  cases node with
  | file data info => exact ⟨data, ⟨location, info, hstatus⟩, hsize⟩
  | directory info => simp [hfile, Node.isDirectory] at hisDir
  | link target info => simp [Node.target?] at htarget

/-- A link that is not followed has as many bytes as its target. -/
theorem FoundIn.size_of_target (h : d.FoundIn before) {target : DiskPath}
    (hlink : d.linkTarget = some target) : d.size = target.bytes.length := by
  obtain ⟨follow, s, -, -, htarget, hsize⟩ := h.node
  rw [hlink] at htarget
  rw [hsize]
  cases hnode : s.node with
  | link found info =>
    simp only [hnode, Node.target?, Option.some.injEq] at htarget
    rw [htarget]
    rfl
  | file data info => simp [hnode, Node.target?] at htarget
  | directory info => simp [hnode, Node.target?] at htarget

end DiskItem

namespace FileSystem

/-- Where a path leads to a file, opening it delivers its data if it can be read. -/
theorem openFile_of_holds {fs : FileSystem} {path : DiskPath} {data : Bytes}
    (h : fs.Holds path data) :
    (∃ e, fs.openFile path = .error e) ∨
      ∃ location, fs.openFile path = .ok (location, ⟨data, none⟩) := by
  obtain ⟨location, info, hstatus⟩ := h
  unfold openFile
  rw [hstatus]
  dsimp only [bind, Except.bind]
  cases hreadable : (Node.file data info).info.readable with
  | false => exact .inl ⟨.accessDenied, rfl⟩
  | true => exact .inr ⟨location, rfl⟩

end FileSystem

namespace ByteStream

/-- A stream that holds nothing worse than its end delivers all that lies ahead. -/
theorem content_ahead {s : ByteStream}
    (hreads : ∀ limit, s.failingRead = some limit → s.data.length ≤ limit) :
    s.content (s.data.length - s.position) = ⟨s.data.drop s.position, none⟩ := by
  have hahead : s.ahead = s.data.drop s.position := by
    unfold ahead
    split
    · rename_i limit hlimit
      rw [List.take_of_length_le (hreads limit hlimit)]
    · rfl
  simp only [content, hahead, List.length_drop, Nat.lt_irrefl, false_and, if_false]
  rw [List.take_of_length_le (by rw [List.length_drop])]

/-- Seeking that succeeds leads to the position asked for, and moves nothing else. -/
theorem eq_of_seek {s s' : ByteStream} {target position : Nat}
    (h : s.seek target = (.ok position, s')) :
    position = target ∧ s' = { s with seeks := s.seeks + 1, position := target } := by
  unfold seek at h
  split at h
  · cases h
  · cases h
    exact ⟨rfl, rfl⟩

/-- A stream is measured from its position to the end that it reports. -/
theorem eq_of_measure {s : ByteStream} {start size : Nat} (h : s.measure.1 = .ok (start, size)) :
    start = s.position ∧ size = s.reportedEnd - s.position := by
  unfold measure at h
  rcases hposition : s.seek s.position with ⟨_ | first, s₁⟩
  · simp [hposition] at h
  obtain ⟨rfl, rfl⟩ := eq_of_seek hposition
  simp only [hposition] at h
  split at h
  · cases h
  · rename_i stop s₂ hstop
    obtain ⟨rfl, rfl⟩ := eq_of_seek hstop
    split at h
    · cases h
    · cases h
      exact ⟨rfl, rfl⟩

end ByteStream

/-- A stream is measured from where it stands to where it says it ends. -/
theorem StreamItem.eq_of_measure {item : StreamItem} {before : Host} {slot : StreamSlot}
    (hslot : before.streams[item.id]? = some slot)
    (hmeasure : (StreamItem.measure item.id before).1 = .ok item) :
    item.start = slot.stream.position ∧
      item.size = slot.stream.reportedEnd - slot.stream.position := by
  simp only [measure, List.getD_eq_getElem?_getD, hslot, Option.getD_some] at hmeasure
  rcases hstream : slot.stream.measure with ⟨_ | ⟨start, size⟩, s⟩
  · simp [hstream] at hmeasure
  · simp only [hstream, Except.ok.injEq] at hmeasure
    have hends := ByteStream.eq_of_measure (congrArg Prod.fst hstream)
    rw [← hmeasure]
    exact hends

namespace ItemSource

variable {α : Type} [Archive α] {a : α} {before now : Host} {c : Content}

/-- What is no link goes with the number of the bytes that are offered. -/
theorem fits_of_length {source : ItemSource} {size : Nat} (hlink : source.linkTarget? = none)
    (hhealthy : c.fault = none) (hlength : c.bytes.length = size) : source.Fits size c := by
  refine ⟨hhealthy, fun _ => hlength, ?_⟩
  rw [hlink]
  rintro _ ⟨⟩

/-- What an item on disk offers goes with the size that it was found with. -/
theorem fits_disk {d : DiskItem} (hindexed : (disk d).IndexedIn before)
    (hsound : (disk d).Unharmed before now) (hoffer : (disk d).offer a now = .ok (some c)) :
    (disk d).Fits d.size c := by
  have hfound : d.FoundIn before.files := hindexed
  simp only [offer, openData, DiskItem.openData] at hoffer
  cases hdir : d.isDir with
  | true => simp [hdir] at hoffer
  | false =>
    cases hlink : d.linkTarget with
    | some target =>
      have hc : c = ⟨Utf8.encode target.text.toList, none⟩ := by
        simpa [hdir, hlink, Reader.content, eq_comm] using hoffer
      have htarget : (disk d).linkTarget? = some target := hlink
      rw [hc]
      refine ⟨rfl, ?_, ?_⟩
      · rw [htarget]
        rintro ⟨⟩
      · rw [htarget]
        rintro _ ⟨⟩
        exact ⟨rfl, (hfound.size_of_target hlink).symm⟩
    | none =>
      obtain ⟨data, hholds, hsize⟩ := hfound.holds hdir hlink
      have hc : c = ⟨data, none⟩ := by
        rcases FileSystem.openFile_of_holds (hsound hlink data hholds) with
          ⟨e, hopen⟩ | ⟨_ | location, hopen⟩
        · simp [hdir, hlink, hopen, Except.map] at hoffer
        · simpa [hdir, hlink, hopen, Except.map, Reader.content, eq_comm] using hoffer
        · simpa [hdir, hlink, hopen, Except.map, Reader.content, eq_comm] using hoffer
      rw [hc]
      exact fits_of_length hlink rfl hsize.symm

/-- What a lent stream offers goes with the size that was measured. -/
theorem fits_stream {item : StreamItem} (hindexed : (stream item).IndexedIn before)
    (hsound : (stream item).Unharmed before now)
    (hoffer : (stream item).offer a now = .ok (some c)) : (stream item).Fits item.size c := by
  obtain ⟨slot, slot', hslot, hslot', hend, hdata, hreads⟩ := hsound
  obtain ⟨hstart, hsize⟩ := StreamItem.eq_of_measure hslot hindexed
  simp only [offer, openData, StreamItem.openData, List.getD_eq_getElem?_getD, hslot',
    Option.getD_some] at hoffer
  cases hbusy : slot'.busy with
  | true => simp [hbusy, Except.map] at hoffer
  | false =>
    rcases hseek : slot'.stream.seek item.start with ⟨_ | position, s⟩
    · simp [hbusy, hseek, Except.map] at hoffer
    · have hset : (now.setSlot item.id ⟨s, true⟩).streams[item.id]? = some ⟨s, true⟩ :=
        Host.streams_setSlot hslot' _
      have hc : c = s.content item.size := by
        simpa [hbusy, hseek, Except.map, Reader.content_of_slot hset, eq_comm] using hoffer
      obtain ⟨-, hs⟩ := ByteStream.eq_of_seek hseek
      have hahead : item.size = s.data.length - s.position := by
        rw [hs]
        exact hsize.trans (by rw [hstart, hend, hdata])
      have hreads' : ∀ limit, s.failingRead = some limit → s.data.length ≤ limit := by
        rw [hs]
        exact hreads
      rw [hahead, ByteStream.content_ahead hreads'] at hc
      rw [hc, hahead]
      exact fits_of_length rfl rfl List.length_drop

/-- What a stored item offers goes with the size that the archive tells. -/
theorem fits_renamed {j : StoredIndex} {m : MemoryArchive} (hreads : Archive.ReadsAs a m)
    (hoffer : (renamed j).offer a now = .ok (some c)) :
    ∃ n, (renamed j).property a .size = .uint64 n ∧ (renamed j).Fits n c := by
  simp only [offer, openData, hreads.openItem] at hoffer
  simp only [property, hreads.property, Archive.property]
  simp only [Archive.openItem] at hoffer
  cases hentry : m.entries[j.val]? with
  | none => simp [hentry, Except.map] at hoffer
  | some e =>
    have hc : c = ⟨e.data.getD [], none⟩ := by
      simpa [hentry, Except.map, Reader.content, eq_comm] using hoffer
    rw [hc]
    exact ⟨_, rfl, fits_of_length rfl rfl rfl⟩

/-- What is offered goes with the size that the source reports. -/
theorem fits_of_offer {source : ItemSource} (hindexed : source.IndexedIn before)
    (hsound : source.Unharmed before now)
    (hstored : source.renamed?.isSome → ∃ m : MemoryArchive, Archive.ReadsAs a m)
    (hoffer : source.offer a now = .ok (some c)) :
    ∃ n, source.property a .size = .uint64 n ∧ source.Fits n c := by
  cases source with
  | disk d => exact ⟨d.size, rfl, fits_disk hindexed hsound hoffer⟩
  | stream item => exact ⟨item.size, rfl, fits_stream hindexed hsound hoffer⟩
  | buffer b =>
    have hc : c = ⟨b.data, none⟩ := by
      simpa [offer, openData, Reader.content, eq_comm] using hoffer
    rw [hc]
    exact ⟨b.data.length, rfl, fits_of_length rfl rfl rfl⟩
  | renamed j =>
    obtain ⟨m, hm⟩ := hstored rfl
    exact fits_renamed hm hoffer

/-- A source that offers nothing to read reports that it is empty. -/
theorem size_of_no_offer {source : ItemSource} (hindexed : source.IndexedIn before)
    (hoffer : source.offer a now = .ok none) : source.property a .size = .uint64 0 := by
  cases source with
  | disk d =>
    have hdir : d.isDir = true := by
      by_contra hfile
      rw [Bool.not_eq_true] at hfile
      simp only [offer, openData, DiskItem.openData, hfile] at hoffer
      cases hlink : d.linkTarget with
      | some target => simp [hlink] at hoffer
      | none =>
        rcases hopen : now.files.openFile d.path with e | ⟨_ | location, content⟩ <;>
          simp [hlink, hopen, Except.map] at hoffer
    exact congrArg PropertyValue.uint64 (DiskItem.FoundIn.size_of_isDir hindexed hdir)
  | stream item =>
    simp only [offer, openData] at hoffer
    rcases hopen : item.openData now with ⟨_ | r, h⟩ <;> simp [hopen, Except.map] at hoffer
  | buffer b => simp [offer, openData] at hoffer
  | renamed j =>
    simp only [offer, openData] at hoffer
    cases hopen : (Archive.openItem a j).1 <;> simp [hopen, Except.map] at hoffer

/-- What goes with a size is never shorter, and just as long unless it is the text of a link target
that is none. -/
theorem Fits.length {source : ItemSource} {size : Nat} (h : source.Fits size c) :
    size ≤ c.bytes.length ∧
      ((∀ target, source.linkTarget? = some target → (Utf8.decode? target.bytes).isSome) →
        c.bytes.length = size) := by
  cases hlink : source.linkTarget? with
  | none =>
    have hlength := h.data hlink
    exact ⟨hlength.ge, fun _ => hlength⟩
  | some target =>
    obtain ⟨hbytes, hsize⟩ := h.link target hlink
    rw [hbytes, ← hsize]
    refine ⟨Utf8.length_le_encode_lossy target.bytes, fun htext => ?_⟩
    obtain ⟨text, htext⟩ := Option.isSome_iff_exists.1 (htext target rfl)
    exact congrArg List.length (Utf8.encode_lossy_of_decode? htext)

/-- Giving back another source does the source no harm. -/
theorem Unharmed.close {source : ItemSource} (h : source.Unharmed before now) (r : Reader) :
    source.Unharmed before (r.close now) := by
  cases r with
  | settled content => exact h
  | file location content => exact h
  | stream id left =>
    simp only [Reader.close]
    cases hread : now.streams[id]? with
    | none => exact h
    | some read =>
      cases source with
      | disk d => exact h
      | buffer b => trivial
      | renamed j => trivial
      | stream item =>
        obtain ⟨slot, slot', hslot, hslot', hend, hdata, hreads⟩ := h
        by_cases hid : id = item.id
        · subst hid
          have hsame : read = slot' := by
            rw [hread] at hslot'
            exact Option.some.inj hslot'
          refine ⟨slot, { read with busy := false }, hslot, ?_, hend, ?_, ?_⟩
          · exact Host.streams_setSlot hread _
          · rw [hsame]
            exact hdata
          · rw [hsame]
            exact hreads
        · exact ⟨slot, slot', hslot, (List.getElem?_set_ne hid).trans hslot', hend, hdata, hreads⟩

end ItemSource

namespace Offer

variable {offer : Offer}

/-- There is no data exactly if nothing is offered. -/
theorem answer_eq_noData_iff : offer.answer = .noData ↔ offer = .ok none := by
  rcases offer with e | _ | c <;> simp [answer]

/-- There is a stream exactly if a content is offered. -/
theorem answer_eq_stream_iff : offer.answer = .stream ↔ ∃ c, offer = .ok (some c) := by
  rcases offer with e | _ | c <;> simp [answer]

end Offer

namespace OutputItem

variable {α : Type} [Archive α]

/-- The item is a stored one, or the call brings it. -/
def BroughtBy (a : α) (o : IndexOptions) (call : Call) : OutputItem → Prop
  | kept _ => True
  | added new => ∃ news, call.Brings a o news ∧ new ∈ news

/-- What a call brings was indexed in the world of the call. -/
theorem BroughtBy.indexedIn {item : OutputItem} {a : α} {o : IndexOptions} {call : Call}
    (h : item.BroughtBy a o call) : item.source.IndexedIn call.host := by
  cases item with
  | kept j => trivial
  | added new =>
    obtain ⟨news, hbrings, hnew⟩ := h
    exact Change.indexedIn_of_brings hbrings new hnew

/-- An item comes from the stored item that its source is. -/
theorem renamed?_source (item : OutputItem) : item.source.renamed? = item.stored? := by
  cases item <;> rfl

/-- The size of an item is that of its source. -/
theorem property_size (item : OutputItem) (a : α) :
    item.property a .size = item.source.property a .size := by
  cases item <;> rfl

end OutputItem

namespace Session

variable {α ρ : Type} [Archive α] [Reporter ρ]

section

variable {s : Session α ρ} {i : OutputIndex}

omit [Archive α] in
/-- Asking whether to cancel harms no source. -/
theorem unharmed_asked {source : ItemSource} {before : Host}
    (h : source.Unharmed before s.host) : source.Unharmed before s.asked.host := by
  rw [host_asked]
  unfold release
  cases s.reading with
  | none => exact h
  | some r => exact h.close r

/-- Data is only handed out in the window. -/
theorem active_of_grant {answer : DataAnswer} (hgrant : (s.answer (.data i)).1 = .ok answer) :
    s.phase = .active := by
  by_contra hphase
  have hitem : s.release.item i "open item data" =
      .error (.invalidState "open item data" s.phase.label) := by
    rw [item_release, item_of_inactive hphase]
  simp only [Session.answer, data, hitem] at hgrant
  cases hgrant

/-- Data that is handed out is what the source offers at that moment, unless it is unavailable. -/
theorem offer_of_grant (hfits : s.phase = .active → s.total ≤ maxItems) {answer : DataAnswer}
    (hgrant : (s.answer (.data i)).1 = .ok answer) :
    ∃ item, s.outputs[i.val]? = some item ∧ (answer = .unavailable ∨
      (item.source.offer s.archive s.asked.host).answer = answer ∧
        (s.answer (.data i)).2.remaining = (item.source.offer s.archive s.asked.host).content) := by
  obtain ⟨item, hat, ⟨-, hanswer⟩ | ⟨-, hanswer⟩⟩ := answer_of_grant hfits hgrant
  · rw [hanswer] at hgrant
    exact ⟨item, hat, .inl (Except.ok.inj hgrant).symm⟩
  · have hback := s.givesBack_asked
    obtain ⟨hreply, hremaining, -, -⟩ := openSource_offer hback.reading i item
    rw [s.archive_asked] at hreply hremaining
    rw [hanswer] at hgrant ⊢
    exact ⟨item, hat, .inr ⟨hreply.symm.trans (Except.ok.inj hgrant), hremaining⟩⟩

/-- The size of an item is asked while its data can be. -/
theorem answer_size {item : OutputItem} (hphase : s.phase = .active) (hfits : s.total ≤ maxItems)
    (hat : s.outputs[i.val]? = some item) :
    (s.answer (.property i .size)).1 = .ok (item.source.property s.archive .size) := by
  rw [(serves_of_active hphase hfits).property, answerAt, hat, ← item.property_size]

end

/-- In every run, whatever was asked and whatever has changed around: where a request for data is
answered with nothing to read, the item reports a size of 0.  Where it is answered with a stream,
and the source is unharmed since the call that brought the item, the item reports some size `n`.
Reading the stream comes to an end after so many reads at most, and whoever reads to the end, in
whatever pieces, meets no failure and gets exactly `n` bytes, unless the item is a link that is not
followed and whose target is no UTF-8.  The data of such a link is its target as text for a reader,
of `n` bytes at least.  Kept and renamed items are taken to be those of an archive that answers as
one of decoded items. -/
theorem reads_as_many_bytes_as_size {archive : α} {h : Host} {items : List NewItem}
    {deletions : Deletions} {reporter : Option ρ} {s now : Session α ρ}
    {moments : List (Moment α ρ)}
    (hs : Session.start archive h items deletions reporter = .ok s) (hrun : s.Run moments now)
    {i : OutputIndex} {answer : DataAnswer} (hgrant : (now.answer (.data i)).1 = .ok answer) :
    ∃ item, now.outputs[i.val]? = some item ∧
      ∀ {a : α} {o : IndexOptions} {call : Call}, item.BroughtBy a o call →
        (answer = .noData → (now.answer (.property i .size)).1 = .ok (.uint64 0)) ∧
        (answer = .stream → item.source.Unharmed call.host now.host →
          (item.stored?.isSome → ∃ m : MemoryArchive, Archive.ReadsAs now.archive m) →
          ∃ n most, (now.answer (.property i .size)).1 = .ok (.uint64 n) ∧
            ∀ course, (now.answer (.data i)).2.Spared course →
              let reads := leadingReads ((now.answer (.data i)).2.exchanges course)
              ((∀ read ∈ reads, 0 < read.1) → most < reads.length → Ends reads) ∧
              (Ends reads →
                (gathered reads).fault = none ∧ n ≤ (gathered reads).bytes.length ∧
                ((∀ target, item.source.linkTarget? = some target →
                  (Utf8.decode? target.bytes).isSome) → (gathered reads).bytes.length = n) ∧
                ∀ target, item.source.linkTarget? = some target →
                  (gathered reads).bytes = Utf8.encode target.text.toList)) := by
  obtain ⟨-, hfits⟩ := active_of_run hs hrun
  have hphase := active_of_grant hgrant
  obtain ⟨item, hat, hoffered⟩ := offer_of_grant hfits hgrant
  refine ⟨item, hat, ?_⟩
  intro a o call hbrought
  have hindexed := hbrought.indexedIn
  rw [answer_size hphase (hfits hphase) hat]
  rcases hoffered with rfl | ⟨hanswer, hremaining⟩
  · exact ⟨nofun, nofun⟩
  constructor
  · rintro rfl
    have hoffer : item.source.offer now.archive now.asked.host = .ok none :=
      Offer.answer_eq_noData_iff.1 hanswer
    rw [ItemSource.size_of_no_offer hindexed hoffer]
  · rintro rfl hsound hstored
    obtain ⟨c, hoffer⟩ := Offer.answer_eq_stream_iff.1 hanswer
    rw [hoffer] at hremaining
    rw [← item.renamed?_source] at hstored
    obtain ⟨n, hn, hfit⟩ :=
      ItemSource.fits_of_offer hindexed (unharmed_asked hsound) hstored hoffer
    obtain ⟨hlong, hexact⟩ := hfit.length
    refine ⟨n, c.bytes.length, congrArg Except.ok hn, fun course hspared => ?_⟩
    have hdelivers := delivers_of_spared hspared
    rw [hremaining] at hdelivers
    refine ⟨Content.ends_of_length_lt hdelivers, fun hends => ?_⟩
    have hread := Content.gathered_eq_of_ends hdelivers hends
    dsimp only [Offer.content] at hread ⊢
    rw [hread]
    exact ⟨hfit.healthy, hlong, hexact, fun target htarget => (hfit.link target htarget).1⟩

/-- A kept item of one byte, and a lent stream of three bytes that stood behind the first one; both
are read byte by byte. -/
theorem reads_as_many_bytes_as_size_kept_and_lent :
    let archive : MemoryArchive := ⟨[⟨"k", some [7], default, 32⟩], 0⟩
    let path : ItemPath := ⟨"a", by decide, (PathFault.of?_eq_none_iff.1 rfl).2⟩
    let h : Host := ⟨⟨.empty, [], []⟩, [⟨{ data := [1, 2, 3], position := 1 }, false⟩], default⟩
    let item : NewItem := ⟨path, .stream ⟨0, 1, 2, default⟩⟩
    let course : List RunEvent := [.ask (.read 1), .ask (.read 1), .ask (.read 1)]
    ∃ s : Session MemoryArchive Silent,
      Session.start archive h [item] (.empty 1) none = .ok s ∧
      let now := (s.answer .countItems).2
      let length (i : OutputIndex) :=
        (gathered (leadingReads ((now.answer (.data i)).2.exchanges course))).bytes.length
      (now.answer (.property ⟨0⟩ .size)).1 = .ok (.uint64 1) ∧ length ⟨0⟩ = 1 ∧
      (now.answer (.property ⟨1⟩ .size)).1 = .ok (.uint64 2) ∧ length ⟨1⟩ = 2 := by
  intro archive path h item course
  let s : Session MemoryArchive Silent :=
    { archive, host := h, items := [item], deletions := .empty 1, reporter := none }
  have hs : Session.start archive h [item] (.empty 1) none = .ok s := rfl
  have hrun := (Run.begin (s := s)).ask .countItems
  have hgrant : ∀ i < 2, ((s.answer .countItems).2.answer (.data ⟨i⟩)).1 = .ok .stream := by
    decide +kernel
  let call : Call := ⟨h, .add (.stream 0 "a")⟩
  have hkept : (OutputItem.kept ⟨0⟩).BroughtBy archive {} call := trivial
  have hadded : (OutputItem.added item).BroughtBy archive {} call :=
    ⟨[item], rfl, List.mem_singleton_self item⟩
  obtain ⟨_, hat, hserved⟩ := reads_as_many_bytes_as_size hs hrun (hgrant 0 (by decide))
  cases hat
  obtain ⟨_, _, hsize, hread⟩ :=
    (hserved hkept).2 rfl trivial fun _ => ⟨archive, archive.readsAs_self⟩
  cases hsize
  have hfirst := ((hread course trivial).2 (by decide +kernel)).2.2.1 nofun
  obtain ⟨_, hat, hserved⟩ := reads_as_many_bytes_as_size hs hrun (hgrant 1 (by decide))
  cases hat
  obtain ⟨_, _, hsize, hread⟩ := (hserved hadded).2 rfl ⟨_, _, rfl, rfl, rfl, rfl, nofun⟩ nofun
  cases hsize
  have hsecond := ((hread course trivial).2 (by decide +kernel)).2.2.1 nofun
  exact ⟨s, hs, rfl, hfirst, rfl, hsecond⟩

/-- The target of a link that is not followed is one byte that is no text.  That is the size of the
link, but three bytes can be read. -/
theorem link_longer_than_size :
    let name : FileName := ⟨[0x6C], by decide, by decide, by decide, by decide, by decide⟩
    let link : Node := .link ⟨[0xFF]⟩ ⟨0o777, ⟨0, 0⟩, ⟨0, 0⟩, none⟩
    let h : Host := ⟨⟨⟨[([name], link)], by decide⟩, [], []⟩, [], default⟩
    let course : List RunEvent := [.ask (.read 9), .ask (.read 9)]
    ∃ (items : List NewItem) (s : Session EmptyArchive Silent),
      ((Addition.file ⟨[0x6C]⟩ "l").items { symlinkPolicy := .doNotFollow } h).1 = .ok items ∧
      Session.start {} h items (.empty 0) none = .ok s ∧
      let now := (s.answer .countItems).2
      let reads := leadingReads ((now.answer (.data ⟨0⟩)).2.exchanges course)
      (now.answer (.property ⟨0⟩ .size)).1 = .ok (.uint64 1) ∧
      (now.answer (.data ⟨0⟩)).1 = .ok .stream ∧ Ends reads ∧
      gathered reads = ⟨[0xEF, 0xBF, 0xBD], none⟩ := by
  intro name link h course
  let item : NewItem := ⟨⟨"l", by decide, (PathFault.of?_eq_none_iff.1 rfl).2⟩,
    .disk (.ofNode ⟨[0x6C]⟩ link)⟩
  let s : Session EmptyArchive Silent :=
    { archive := {}, host := h, items := [item], deletions := .empty 0, reporter := none }
  refine ⟨[item], s, rfl, rfl, rfl, ?_, ?_, ?_⟩ <;> decide +kernel

end Session

end ArchiveUpdate
