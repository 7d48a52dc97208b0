import ArchiveUpdate.Proofs.SourceFrames

/-!
# Reading a lent stream again

A lent stream is measured once and then opened any number of times, and all its readers move the
same position.  Reads and seeks change nothing else about a stream (`ByteStream.Moved`), and every
opening goes back to where the stream was measured.  So no earlier reader makes a difference: what
can be read are the bytes that were measured, as far as the data goes and reads do not fail
(`StreamItem.reads_what_was_measured`).
-/

set_option autoImplicit false

namespace ArchiveUpdate

namespace Reader

/-- Reads that ask for at most so many bytes each, one after the other: their answers, and what is
left of the source and the world. -/
def reads (r : Reader) (h : Host) : List Nat → List Read × Reader × Host
  | [] => ([], r, h)
  | n :: asks =>
    let (answer, r, h) := r.read h n
    let (more, r, h) := r.reads h asks
    ((n, answer) :: more, r, h)

/-- Reads one after the other take from what is still to come, front to back. -/
theorem delivers_reads (r : Reader) (h : Host) (asks : List Nat) :
    (r.content h).Delivers (r.reads h asks).1 := by
  induction asks generalizing r h with
  | nil => exact .nil _
  | cons n asks ih => exact .cons (r.gives_read h n) (ih _ _)

/-- Each read asks for what it was told to ask for. -/
theorem map_fst_reads (r : Reader) (h : Host) (asks : List Nat) :
    (r.reads h asks).1.map Prod.fst = asks := by
  induction asks generalizing r h with
  | nil => rfl
  | cons n asks ih => exact congrArg (n :: ·) (ih _ _)

/-- More reads than there are bytes, each of which asks for something, find the end. -/
theorem ends_reads {r : Reader} {h : Host} {asks : List Nat} (hask : ∀ n ∈ asks, 0 < n)
    (hmany : (r.content h).bytes.length < asks.length) : Ends (r.reads h asks).1 := by
  rw [← r.map_fst_reads h asks] at hask hmany
  rw [List.length_map] at hmany
  exact Content.ends_of_length_lt (r.delivers_reads h asks)
    (fun read hread => hask _ (List.mem_map_of_mem hread)) hmany

/-- No more is to come than the bound of the source. -/
theorem length_content_le (r : Reader) (h : Host) : (r.content h).bytes.length ≤ r.bound := by
  cases r with
  | settled content => exact Nat.le_refl _
  | file loc content => exact Nat.le_refl _
  | stream id left =>
    simp only [content]
    split
    · exact Nat.zero_le _
    · exact List.length_take_le _ _

/-- Reads in pieces that hold something, more of them than there are bytes, get all there is. -/
theorem drain_eq {n rounds : Nat} (hn : 0 < n) (r : Reader) (h : Host)
    (hrounds : (r.content h).bytes.length < rounds) :
    (r.drain n rounds h).1 = (r.content h).bytes ∧
      (r.drain n rounds h).2.1 = (r.content h).fault := by
  induction rounds generalizing r h with
  | zero => exact absurd hrounds (Nat.not_lt_zero _)
  | succ rounds ih =>
    have hgives := r.gives_read h n
    unfold drain
    rcases hread : r.read h n with ⟨answer, r', h'⟩
    simp only [hread] at hgives
    specialize ih r' h'
    generalize r.content h = c at hgives hrounds
    generalize r'.content h' = rest at hgives ih
    cases hgives with
    | fails => exact ⟨rfl, rfl⟩
    | ends => exact ⟨rfl, rfl⟩
    | @takes _ taken bytes fault htaken =>
      cases taken with
      | nil => exact absurd (htaken rfl) (Nat.ne_of_gt hn)
      | cons b taken =>
        -- the round took something, so still fewer bytes are to come than rounds are left
        simp only [List.length_append, List.length_cons] at hrounds
        obtain ⟨hbytes, hfault⟩ := ih (by dsimp only; omega)
        exact ⟨congrArg (b :: taken ++ ·) hbytes, hfault⟩

/-- Whoever reads to the end gets all there is to come. -/
theorem readToEnd_eq (r : Reader) (h : Host) :
    (r.readToEnd h).1 = (r.content h).bytes ∧ (r.readToEnd h).2.1 = (r.content h).fault :=
  r.drain_eq (Nat.succ_pos _) h (Nat.lt_succ_of_le (r.length_content_le h))

end Reader

namespace ByteStream

/-- No seek fails any more. -/
def Seekable (s : ByteStream) : Prop := ∀ k, s.failingSeek = some k → k < s.seeks

/-- A stream and the same stream later: reads and seeks have moved its position. -/
structure Moved (s s' : ByteStream) : Prop where
  eq : s' = { s with position := s'.position, seeks := s'.seeks }
  seeks_le : s.seeks ≤ s'.seeks

/-- Of the `size` bytes from the position on, those that the data holds and that lie in front of
where reads fail. -/
def range (s : ByteStream) (size : Nat) : Bytes :=
  let stop := min (s.position + size) s.data.length
  match s.failingRead with
  | none => s.data.extract s.position stop
  | some limit => s.data.extract s.position (min stop limit)

variable {s s' : ByteStream}

/-- A stream has moved from itself. -/
theorem Moved.refl (s : ByteStream) : s.Moved s := ⟨rfl, Nat.le_refl _⟩

/-- What was moved twice was moved. -/
theorem Moved.trans {s'' : ByteStream} (h : s.Moved s') (h' : s'.Moved s'') : s.Moved s'' := by
  refine ⟨?_, h.seeks_le.trans h'.seeks_le⟩
  rw [h'.eq, h.eq]

/-- Moving a stream brings no failure of a later seek. -/
theorem Moved.seekable (h : s.Moved s') (hseeks : s.Seekable) : s'.Seekable := by
  intro k hk
  rw [h.eq] at hk
  exact (hseeks k hk).trans_le h.seeks_le

/-- A read moves the stream and does nothing else to it. -/
theorem moved_read (s : ByteStream) (n : Nat) : s.Moved (s.read n).2 := by
  unfold read
  split
  · exact .refl s
  · exact ⟨rfl, Nat.le_refl _⟩

/-- Where no seek is to fail, a stream is moved to wherever it is told. -/
theorem Seekable.seek (h : s.Seekable) (target : Nat) :
    s.seek target = (.ok target, { s with seeks := s.seeks + 1, position := target }) := by
  unfold ByteStream.seek
  rw [if_neg]
  intro hfails
  exact Nat.lt_irrefl _ (h _ hfails)

/-- The stream that has made `n` more seeks can still seek. -/
theorem Seekable.later (h : s.Seekable) (n position : Nat) :
    Seekable { s with seeks := s.seeks + n, position } :=
  fun k hk => (h k hk).trans_le (Nat.le_add_right _ _)

/-- A stream is measured with three seeks and left where it was. -/
theorem Seekable.measure (h : s.Seekable) : s.measure =
    (.ok (s.position, s.reportedEnd - s.position), { s with seeks := s.seeks + 3 }) := by
  have hstop := (h.later 1 s.position).seek s.reportedEnd
  have hback := (h.later 2 s.reportedEnd).seek s.position
  unfold ByteStream.measure
  simp only [h.seek, hstop, hback]

/-- The next bytes of a stream that is back at its position are those of the range. -/
theorem Moved.content_eq (h : s.Moved s') (size : Nat) :
    ({ s' with position := s.position }.content size).bytes = s.range size := by
  rw [h.eq]
  simp only [content, ahead, range, List.extract_eq_take_drop]
  cases s.failingRead with
  | none =>
    dsimp only
    rw [List.take_eq_take_iff, List.length_drop]
    omega
  | some limit =>
    dsimp only
    rw [List.drop_take, List.take_take, List.take_eq_take_iff, List.length_drop]
    omega

end ByteStream

namespace Host

/-- The host has the stream under a number, moved at most, and somebody is reading it or not. -/
def Keeps (h : Host) (id : Nat) (s : ByteStream) (busy : Bool) : Prop :=
  ∃ s', h.streams[id]? = some ⟨s', busy⟩ ∧ s.Moved s'

end Host

namespace Reader

variable {h : Host} {id : Nat} {s : ByteStream} {busy : Bool}

/-- A read of a lent stream keeps it in the slot where it was lent. -/
theorem keeps_read {r : Reader} (hr : r.stream? = some id) (hkeeps : h.Keeps id s busy) (n : Nat) :
    (r.read h n).2.2.Keeps id s busy := by
  cases r with
  | settled content => cases hr
  | file loc content => cases hr
  | stream held left =>
    cases hr
    obtain ⟨s', hslot, hmoved⟩ := hkeeps
    simp only [read]
    split
    · exact ⟨s', hslot, hmoved⟩
    · rename_i slot hread
      have hheld : slot = ⟨s', busy⟩ := by
        split at hread
        · cases hread
        · exact Option.some.inj (hread.symm.trans hslot)
      subst hheld
      have hmoved' := hmoved.trans (s'.moved_read (min n left))
      rcases hanswer : s'.read (min n left) with ⟨_ | taken, s''⟩ <;>
      · rw [hanswer] at hmoved'
        exact ⟨s'', Host.streams_setSlot hslot _, hmoved'⟩

/-- So do any number of reads, and they go on with the same stream. -/
theorem keeps_reads {r : Reader} (hr : r.stream? = some id) (hkeeps : h.Keeps id s busy)
    (asks : List Nat) : (r.reads h asks).2.2.Keeps id s busy ∧
      (r.reads h asks).2.1.stream? = some id := by
  induction asks generalizing r h with
  | nil => exact ⟨hkeeps, hr⟩
  | cons n asks ih => exact ih ((r.stream?_read h n).trans hr) (keeps_read hr hkeeps n)

/-- Giving back a lent stream keeps it in its slot and free for another reader. -/
theorem keeps_close {r : Reader} (hr : r.stream? = some id) (hkeeps : h.Keeps id s busy) :
    (r.close h).Keeps id s false := by
  cases r with
  | settled content => cases hr
  | file loc content => cases hr
  | stream held left =>
    cases hr
    obtain ⟨s', hslot, hmoved⟩ := hkeeps
    simp only [close, hslot]
    exact ⟨s', Host.streams_setSlot hslot _, hmoved⟩

end Reader

namespace StreamItem

variable {item : StreamItem} {h lent : Host} {id : Nat} {s : ByteStream}

/-- The item is opened, read by reads of at most so many bytes, and given back. -/
def visit (item : StreamItem) (h : Host) (asks : List Nat) : Host :=
  match item.openData h with
  | (.error _, h) => h
  | (.ok r, h) =>
    let (_, r, h) := r.reads h asks
    r.close h

/-- What becomes of the world while a stream is lent: the item is visited any number of times, and
otherwise anything but this stream may change. -/
inductive Lent (item : StreamItem) (lent : Host) : Host → Prop
  | refl : item.Lent lent lent
  | visit {now : Host} (asks : List Nat) : item.Lent lent now →
      item.Lent lent (item.visit now asks)
  | aside {now later : Host} : item.Lent lent now →
      later.streams[item.id]? = now.streams[item.id]? → item.Lent lent later

/-- A lent stream is opened where the item starts. -/
theorem openData_of_keeps (hseeks : s.Seekable) (hkeeps : h.Keeps item.id s false) :
    ∃ s', s.Moved s' ∧ item.openData h = (.ok (.stream item.id item.size),
      h.setSlot item.id ⟨{ s' with position := item.start }, true⟩) ∧
      (h.setSlot item.id ⟨{ s' with position := item.start }, true⟩).streams[item.id]? =
        some ⟨{ s' with position := item.start }, true⟩ := by
  obtain ⟨s', hslot, hmoved⟩ := hkeeps
  refine ⟨{ s' with seeks := s'.seeks + 1, position := item.start },
    hmoved.trans ⟨rfl, Nat.le_succ _⟩, ?_, Host.streams_setSlot hslot _⟩
  simp only [openData, List.getD_eq_getElem?_getD, hslot, Option.getD_some, Bool.false_eq_true,
    if_false, (hmoved.seekable hseeks).seek]

/-- A reader that opens a stream, reads and gives it back keeps it for the next one. -/
theorem keeps_visit (hseeks : s.Seekable) (hkeeps : h.Keeps item.id s false) (asks : List Nat) :
    (item.visit h asks).Keeps item.id s false := by
  obtain ⟨s', hmoved, hopen, hslot⟩ := openData_of_keeps hseeks hkeeps
  have hopened := Reader.keeps_reads (r := .stream item.id item.size) rfl
    ⟨_, hslot, hmoved.trans ⟨rfl, Nat.le_refl _⟩⟩ asks
  simp only [visit, hopen]
  exact Reader.keeps_close hopened.2 hopened.1

/-- After any number of such readers the stream is still kept. -/
theorem Lent.keeps {now : Host} (hlent : item.Lent lent now) (hseeks : s.Seekable)
    (hkeeps : lent.Keeps item.id s false) : now.Keeps item.id s false := by
  induction hlent with
  | refl => exact hkeeps
  | visit asks _ ih => exact keeps_visit hseeks ih asks
  | aside _ hsame ih =>
    obtain ⟨s', hslot, hmoved⟩ := ih
    exact ⟨s', hsame.trans hslot, hmoved⟩

/-- A stream that is measured stays where it is. -/
theorem measure_of_seekable (hslot : h.streams[id]? = some ⟨s, false⟩) (hseeks : s.Seekable) :
    measure id h = (.ok ⟨id, s.position, s.reportedEnd - s.position, h.now⟩,
      h.setSlot id ⟨{ s with seeks := s.seeks + 3 }, false⟩) := by
  simp only [measure, List.getD_eq_getElem?_getD, hslot, Option.getD_some, hseeks.measure]

/-- A stream that is measured stays at its position, and as many bytes are noted as lie from there
to the end that it reports, none if it stands behind that end.  Whatever readers the item had and
gave back, wherever they stopped, and whatever else has changed: the item can be opened again, and
reading to the end yields exactly the bytes of that range, up to the end of the data or to where
reads fail.  It makes no difference in which pieces they are read: nothing else comes, all has come
once a read finds the end, and reads that each ask for something find it after so many at most. -/
theorem reads_what_was_measured (hslot : h.streams[id]? = some ⟨s, false⟩)
    (hseeks : s.Seekable) :
    let item : StreamItem := ⟨id, s.position, s.reportedEnd - s.position, h.now⟩
    let lent := h.setSlot id ⟨{ s with seeks := s.seeks + 3 }, false⟩
    measure id h = (.ok item, lent) ∧
    ∀ now, item.Lent lent now → ∃ r opened, item.openData now = (.ok r, opened) ∧
      (r.readToEnd opened).1 = s.range item.size ∧
      (s.failingRead = none → (r.readToEnd opened).2.1 = none) ∧
      (s.range item.size).length ≤ item.size ∧
      ∀ asks, let reads := (r.reads opened asks).1
        (gathered reads).bytes <+: s.range item.size ∧
        (Ends reads → (gathered reads).bytes = s.range item.size) ∧
        ((∀ n ∈ asks, 0 < n) → item.size < asks.length → Ends reads) := by
  intro item lent
  refine ⟨measure_of_seekable hslot hseeks, fun now hlent => ?_⟩
  have hkeeps := hlent.keeps hseeks
    ⟨_, Host.streams_setSlot hslot _, rfl, Nat.le_add_right _ 3⟩
  obtain ⟨s', hmoved, hopen, hopened⟩ := openData_of_keeps hseeks hkeeps
  have hcontent := Reader.content_of_slot hopened item.size
  generalize now.setSlot item.id _ = opened at *
  generalize hr : Reader.stream item.id item.size = r at *
  have hrange : (r.content opened).bytes = s.range item.size := by
    rw [hcontent]
    exact hmoved.content_eq item.size
  have hlength : (s.range item.size).length ≤ item.size := by
    rw [← hrange, hcontent]
    exact List.length_take_le _ _
  have hend := r.readToEnd_eq opened
  refine ⟨r, opened, hopen, hend.1.trans hrange, fun hfails => ?_, hlength, fun asks => ?_⟩
  · have hfailing : s'.failingRead = none := by rw [hmoved.eq, hfails]
    rw [hend.2, hcontent]
    simp [ByteStream.content, hfailing]
  · have hdelivers := r.delivers_reads opened asks
    refine ⟨hrange ▸ (Content.gathered_within hdelivers).1, fun hends => ?_, fun hask hmany => ?_⟩
    · rw [Content.gathered_eq_of_ends hdelivers hends, hrange]
    · rw [← hrange] at hlength
      exact Reader.ends_reads hask (hlength.trans_lt hmany)

/-- Three bytes are measured behind a header, in a stream that holds a fourth one and fails in front
of the third; a reader came before. -/
theorem reads_what_was_measured_behind_header :
    let s : ByteStream :=
      { data := Utf8.encode "headerbody".toList, position := 6, reportedEnd := 9,
        failingRead := some 8 }
    let h : Host := ⟨⟨.empty, [], []⟩, [⟨s, false⟩], default⟩
    let lent := h.setSlot 0 ⟨{ s with seeks := 3 }, false⟩
    let item : StreamItem := ⟨0, 6, 3, default⟩
    h.streams[0]? = some ⟨s, false⟩ ∧ s.Seekable ∧ measure 0 h = (.ok item, lent) ∧
      ∃ r opened, item.openData (item.visit lent [1, 5]) = (.ok r, opened) ∧
        (r.readToEnd opened).1 = Utf8.encode "bo".toList := by
  intro s h lent item
  have hslot : h.streams[0]? = some ⟨s, false⟩ := rfl
  have hseeks : s.Seekable := nofun
  obtain ⟨hmeasure, hread⟩ := reads_what_was_measured hslot hseeks
  obtain ⟨r, opened, hopen, hbytes, -⟩ := hread _ (.visit [1, 5] .refl)
  exact ⟨hslot, hseeks, hmeasure, r, opened, hopen, hbytes.trans (by decide)⟩

end StreamItem

end ArchiveUpdate
