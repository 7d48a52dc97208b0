import ArchiveUpdate.Host

/-!
# What comes of reading a source to the end

What is still to come from a source is a `Content`, whatever sort of source it is, and each read
takes its part from the front of it (`Content.Gives`, `Reader.gives_read`).  So the pieces in which
a source is read do not matter: whoever reads on until nothing more comes, or until a read fails,
has gathered exactly that content (`gathered_eq_of_ends`).
-/

set_option autoImplicit false

namespace ArchiveUpdate

/-- A read: how many bytes were asked for at most, and the answer. -/
abbrev Read := Nat × Except IoError Bytes

namespace Content

/-- A read of at most `n` bytes that leads from one content to what is left of it.  A read of no
bytes is the only one that can take nothing although something is left. -/
inductive Gives : Content → Read → Content → Prop
  | takes {n : Nat} {taken : Bytes} (rest : Bytes) (fault : Option IoError)
      (h : taken = [] → n = 0) : Gives ⟨taken ++ rest, fault⟩ (n, .ok taken) ⟨rest, fault⟩
  | ends (n : Nat) : Gives ⟨[], none⟩ (n, .ok []) ⟨[], none⟩
  | fails (n : Nat) (e : IoError) : Gives ⟨[], some e⟩ (n, .error e) ⟨[], some e⟩

/-- Reads that take from a content one after the other. -/
inductive Delivers : Content → List Read → Prop
  | nil (c : Content) : c.Delivers []
  | cons {c rest : Content} {read : Read} {reads : List Read} :
      c.Gives read rest → rest.Delivers reads → c.Delivers (read :: reads)

/-- Reading from a content leads to what is left of it. -/
theorem gives_read (c : Content) (n : Nat) : c.Gives (n, (c.read n).1) (c.read n).2 := by
  obtain ⟨bytes, fault⟩ := c
  cases bytes with
  | nil =>
    cases fault with
    | none =>
      simp only [Content.read, List.take_nil, List.drop_nil]
      exact .ends n
    | some e => exact .fails n e
  | cons b bytes =>
    have htaken : (b :: bytes).take n = [] → n = 0 := by
      intro hnil
      simpa using hnil
    have hgives := Gives.takes ((b :: bytes).drop n) fault htaken
    rwa [List.take_append_drop] at hgives

end Content

/-- The bytes of all reads that succeeded, and the failure of the first one that did not. -/
def gathered : List Read → Content
  | [] => ⟨[], none⟩
  | (_, .ok taken) :: reads => ⟨taken ++ (gathered reads).bytes, (gathered reads).fault⟩
  | (_, .error e) :: reads => ⟨(gathered reads).bytes, some e⟩

/-- The read failed or, though it asked for something, got nothing. -/
def Read.isLast : Read → Bool
  | (_, .error _) => true
  | (n, .ok taken) => n ≠ 0 && taken.isEmpty

/-- Reading went on to the end of the source. -/
def Ends (reads : List Read) : Prop := ∃ read ∈ reads, Read.isLast read = true

instance (reads : List Read) : Decidable (Ends reads) :=
  inferInstanceAs (Decidable (∃ read ∈ reads, _))

/-- Reads go on to the end with the first read or with the others. -/
theorem ends_cons {read : Read} {reads : List Read} :
    Ends (read :: reads) ↔ Read.isLast read = true ∨ Ends reads := by
  simp only [Ends, List.mem_cons, or_and_right, exists_or, exists_eq_left]

namespace Content

variable {c : Content} {reads : List Read}

/-- At no time more was gathered than there is, and a failure only behind the last byte. -/
theorem gathered_within (h : c.Delivers reads) :
    (gathered reads).bytes <+: c.bytes ∧
      ((gathered reads).fault = none ∨ gathered reads = c) := by
  induction h with
  | nil c => exact ⟨List.nil_prefix, .inl rfl⟩
  | cons hgives _ ih =>
    obtain ⟨hbytes, hfault⟩ := ih
    cases hgives with
    | takes rest fault h =>
      refine ⟨(List.prefix_append_right_inj _).2 hbytes, hfault.imp id fun hall => ?_⟩
      rw [gathered, hall]
    | ends n => exact ⟨hbytes, hfault⟩
    | fails n e =>
      have hnil : (gathered _).bytes = [] := List.prefix_nil.1 hbytes
      refine ⟨hbytes, .inr ?_⟩
      rw [gathered, hnil]

/-- From a source that has ended without a failure nothing is gathered. -/
theorem gathered_of_ended (h : (⟨[], none⟩ : Content).Delivers reads) :
    gathered reads = ⟨[], none⟩ := by
  obtain ⟨hbytes, hfault | hall⟩ := gathered_within h
  · rw [← List.prefix_nil.1 hbytes, ← hfault]
  · exact hall

/-- Whoever reads to the end has gathered all there was, in whatever pieces. -/
theorem gathered_eq_of_ends (h : c.Delivers reads) (hends : Ends reads) : gathered reads = c := by
  induction h with
  | nil c =>
    obtain ⟨read, hread, -⟩ := hends
    cases hread
  | cons hgives hrest ih =>
    cases hgives with
    | takes rest fault h =>
      rcases ends_cons.1 hends with hlast | hlater
      · simp only [Read.isLast, Bool.and_eq_true, decide_eq_true_eq, List.isEmpty_iff] at hlast
        exact absurd (h hlast.2) hlast.1
      · rw [gathered, ih hlater]
    | ends n =>
      rw [gathered, gathered_of_ended hrest]
      rfl
    | fails n e =>
      have hnil : (gathered _).bytes = [] := List.prefix_nil.1 (gathered_within hrest).1
      rw [gathered, hnil]

/-- More reads than there are bytes, each of which asks for something, come to the end. -/
theorem ends_of_length_lt (h : c.Delivers reads) (hask : ∀ read ∈ reads, 0 < read.1)
    (hmany : c.bytes.length < reads.length) : Ends reads := by
  induction h with
  | nil c => exact absurd hmany (Nat.not_lt_zero _)
  | cons hgives hrest ih =>
    have hfirst := hask _ List.mem_cons_self
    cases hgives with
    | @takes n taken rest fault h =>
      have htaken : 0 < taken.length := by
        rw [List.length_pos_iff]
        intro hnil
        exact Nat.ne_of_gt hfirst (h hnil)
      simp only [List.length_append, List.length_cons] at hmany
      refine ends_cons.2 (.inr (ih (fun read hread => hask read (List.mem_cons_of_mem _ hread)) ?_))
      dsimp only
      omega
    | ends n => exact ends_cons.2 (.inl (by simpa [Read.isLast] using Nat.ne_of_gt hfirst))
    | fails n e => exact ends_cons.2 (.inl rfl)

end Content

namespace ByteStream

/-- What the next `n` bytes of a stream come to: those that are there, and the failure that keeps
the others from coming, if one does. -/
def content (s : ByteStream) (n : Nat) : Content where
  bytes := s.ahead.take n
  fault :=
    if s.ahead.length < n ∧ s.failingRead.any (· ≤ s.position + s.ahead.length) then some s.fault
    else none

/-- Nothing can be read from a stream that fails where it stands. -/
theorem ahead_eq_nil {s : ByteStream} (h : s.failingRead.any (· ≤ s.position) = true) :
    s.ahead = [] := by
  unfold ahead
  cases hlimit : s.failingRead with
  | none => simp [hlimit] at h
  | some limit =>
    have hle : limit ≤ s.position := by simpa [hlimit] using h
    apply List.drop_eq_nil_of_le
    rw [List.length_take]
    omega

/-- Behind the next `n` bytes a stream has the same ahead but for those. -/
theorem ahead_advance (s : ByteStream) (n : Nat) :
    { s with position := s.position + n }.ahead = s.ahead.drop n := by
  unfold ahead
  cases s.failingRead <;> simp only [List.drop_drop]

/-- The next bytes are the nearest of them and then those behind. -/
theorem content_eq_take_append (s : ByteStream) {left k : Nat} (hk : k ≤ left)
    (hahead : k ≤ s.ahead.length) :
    let s' : ByteStream := { s with position := s.position + k }
    s.content left = ⟨s.ahead.take k ++ (s'.content (left - k)).bytes,
      (s'.content (left - k)).fault⟩ := by
  intro s'
  have hrest : s'.ahead = s.ahead.drop k := s.ahead_advance k
  have hbytes : s.ahead.take k ++ s'.ahead.take (left - k) = s.ahead.take left := by
    rw [hrest, ← List.take_add, Nat.add_sub_cancel' hk]
  have hlength : s'.ahead.length < left - k ↔ s.ahead.length < left := by
    rw [hrest, List.length_drop]
    omega
  have hend : s'.position + s'.ahead.length = s.position + s.ahead.length := by
    rw [hrest, List.length_drop]
    simp only [s']
    omega
  simp only [content, hbytes, hlength, hend]
  rfl

/-- A read takes from what the next bytes come to, if it does not ask for more than these. -/
theorem gives_read (s : ByteStream) {n left : Nat} (hleft : 0 < left) :
    match s.read (min n left) with
    | (.ok taken, s') => (s.content left).Gives (n, .ok taken) (s'.content (left - taken.length))
    | (.error e, s') => s' = s ∧ (s.content left).Gives (n, .error e) (s.content left) := by
  by_cases hfails : s.failingRead.any (· ≤ s.position) = true
  · have hcontent : s.content left = ⟨[], some s.fault⟩ := by
      simp [content, ahead_eq_nil hfails, hleft, hfails]
    simp only [read, if_pos hfails, true_and, hcontent]
    exact .fails n s.fault
  · simp only [read, if_neg hfails]
    generalize htaken : s.ahead.take (min n left) = taken
    by_cases hnothing : taken = [] ∧ 0 < n
    · obtain ⟨rfl, hpos⟩ := hnothing
      have hnil : s.ahead = [] := by
        rcases List.take_eq_nil_iff.1 htaken with hzero | hnil
        · omega
        · exact hnil
      have hcontent : s.content left = ⟨[], none⟩ := by
        simpa [content, hnil] using fun _ => by simpa using hfails
      simp only [List.length_nil, Nat.add_zero, Nat.sub_zero, hcontent]
      exact .ends n
    · have hlength : taken.length = min (min n left) s.ahead.length := by
        rw [← htaken, List.length_take]
      have htaken' : s.ahead.take taken.length = taken := by
        rw [hlength, ← List.take_take, List.take_length, htaken]
      have hleft' : taken.length ≤ left := by omega
      have hahead : taken.length ≤ s.ahead.length := by omega
      have hcontent := s.content_eq_take_append hleft' hahead
      rw [htaken'] at hcontent
      rw [hcontent]
      apply Content.Gives.takes
      intro hnil
      exact Nat.eq_zero_of_not_pos fun hpos => hnothing ⟨hnil, hpos⟩

end ByteStream

/-- A lent stream that is put into its slot is found there. -/
theorem Host.streams_setSlot {h : Host} {id : Nat} {slot : StreamSlot}
    (hslot : h.streams[id]? = some slot) (slot' : StreamSlot) :
    (h.setSlot id slot').streams[id]? = some slot' :=
  List.getElem?_set_self (List.getElem?_eq_some_iff.1 hslot).1

namespace Reader

/-- What is still to come from an opened source. -/
def content (r : Reader) (h : Host) : Content :=
  match r with
  | settled content | file _ content => content
  | stream id left =>
    match h.streams[id]? with
    | none => ⟨[], none⟩
    | some slot => slot.stream.content left

/-- What is still to come from a lent stream is in the stream in its slot. -/
theorem content_of_slot {h : Host} {id : Nat} {slot : StreamSlot}
    (hslot : h.streams[id]? = some slot) (left : Nat) :
    (stream id left).content h = slot.stream.content left := by
  simp only [content, hslot]

/-- Each read of an opened source takes its part from what is still to come. -/
theorem gives_read (r : Reader) (h : Host) (n : Nat) :
    (r.content h).Gives (n, (r.read h n).1) ((r.read h n).2.1.content (r.read h n).2.2) := by
  cases r with
  | settled content => exact content.gives_read n
  | file loc content => exact content.gives_read n
  | stream id left =>
    by_cases hleft : left = 0
    · subst hleft
      have hcontent : (stream id 0).content h = ⟨[], none⟩ := by
        simp only [content]
        cases h.streams[id]? <;> simp [ByteStream.content]
      simp only [read, if_pos, hcontent]
      exact .ends n
    · cases hslot : h.streams[id]? with
      | none =>
        simp only [read, if_neg hleft, hslot, content]
        exact .ends n
      | some slot =>
        have hset := Host.streams_setSlot hslot
        have hgives := slot.stream.gives_read (n := n) (Nat.pos_of_ne_zero hleft)
        simp only [read, if_neg hleft, hslot]
        rw [content_of_slot hslot]
        rcases hread : slot.stream.read (min n left) with ⟨answer, s'⟩
        rw [hread] at hgives
        cases answer with
        | error e =>
          obtain ⟨rfl, hgives⟩ := hgives
          rw [content_of_slot (hset _)]
          exact hgives
        | ok taken =>
          rw [content_of_slot (hset _)]
          exact hgives

end Reader

end ArchiveUpdate
