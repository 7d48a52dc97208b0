import ArchiveUpdate.FileSystem.Access

/-!
# The world around an update

A `Host` is what an update reads from besides the stored archive: the files, the streams that
callers have lent, and the clock.  A stream delivers its bytes from a position that reads and seeks
move; it may be told to fail at one seek or at every read behind some position.  A `Reader` is an
opened source.
-/

set_option autoImplicit false

namespace ArchiveUpdate

/-- A stream of bytes with a position. -/
structure ByteStream where
  data : Bytes
  position : Nat := 0
  /-- The position that a seek to the end reports. -/
  reportedEnd : Nat := data.length
  /-- The number of seeks so far; asking for the position counts as one. -/
  seeks : Nat := 0
  /-- The number of the seek that fails. -/
  failingSeek : Option Nat := none
  /-- The position from which on reads fail. -/
  failingRead : Option Nat := none
  fault : IoError := default
  deriving DecidableEq, Repr, Inhabited

namespace ByteStream

/-- Moves to a position, which is also the answer. -/
def seek (s : ByteStream) (target : Nat) : Except IoError Nat × ByteStream :=
  if s.failingSeek = some s.seeks then (.error s.fault, { s with seeks := s.seeks + 1 })
  else (.ok target, { s with seeks := s.seeks + 1, position := target })

/-- Finds the position and the number of bytes from there to the reported end, and stays at the
position if all goes well. -/
def measure (s : ByteStream) : Except IoError (Nat × Nat) × ByteStream :=
  match s.seek s.position with
  | (.error e, s) => (.error e, s)
  | (.ok start, s) =>
    match s.seek s.reportedEnd with
    | (.error e, s) => (.error e, s)
    | (.ok stop, s) =>
      match s.seek start with
      | (.error e, s) => (.error e, s)
      | (.ok _, s) => (.ok (start, stop - start), s)

/-- The bytes from the position up to the end of the data or to where reads fail. -/
def ahead (s : ByteStream) : Bytes :=
  match s.failingRead with
  | some limit => (s.data.take limit).drop s.position
  | none => s.data.drop s.position

/-- Takes at most `n` bytes; at the end of the data the answer is empty. -/
def read (s : ByteStream) (n : Nat) : Except IoError Bytes × ByteStream :=
  if s.failingRead.any (· ≤ s.position) then (.error s.fault, s)
  else
    let taken := s.ahead.take n
    (.ok taken, { s with position := s.position + taken.length })

end ByteStream

/-- A lent stream, and whether someone is reading it. -/
structure StreamSlot where
  stream : ByteStream
  busy : Bool := false
  deriving DecidableEq, Repr, Inhabited

/-- The files, the lent streams and the clock. -/
structure Host where
  files : FileSystem
  streams : List StreamSlot
  now : Timestamp

namespace Host

/-- The host with another stream lent to it, and the number under which it is known. -/
def lend (h : Host) (s : ByteStream) : Nat × Host :=
  (h.streams.length, { h with streams := h.streams ++ [⟨s, false⟩] })

/-- The host with a slot in place of another. -/
def setSlot (h : Host) (id : Nat) (slot : StreamSlot) : Host :=
  { h with streams := h.streams.set id slot }

/-- The host after the data of the file at a location was read. -/
def touch (h : Host) (loc : Location) : Host :=
  { h with files := { h.files with tree := h.files.tree.touch loc h.now.unix } }

end Host

/-- An opened source: settled content, the content of the file at a location, or a lent stream of
which only so many bytes belong to it. -/
inductive Reader where
  | settled (content : Content)
  | file (loc : Location) (content : Content)
  | stream (id left : Nat)
  deriving DecidableEq, Repr

namespace Reader

/-- Takes at most `n` bytes; an empty answer means that the source has ended. -/
def read (r : Reader) (h : Host) (n : Nat) : Except IoError Bytes × Reader × Host :=
  match r with
  | settled content =>
    let (answer, content) := content.read n
    (answer, settled content, h)
  | file loc content =>
    let (answer, content) := content.read n
    (answer, file loc content, h.touch loc)
  | stream id left =>
    match (if left = 0 then none else h.streams[id]?) with
    | none => (.ok [], r, h)
    | some slot =>
      match slot.stream.read (min n left) with
      | (.error e, s) => (.error e, r, h.setSlot id { slot with stream := s })
      | (.ok taken, s) =>
        (.ok taken, stream id (left - taken.length), h.setSlot id { slot with stream := s })

/-- The greatest number of bytes that may still come. -/
def bound : Reader → Nat
  | settled content | file _ content => content.bytes.length
  | stream _ left => left

/-- Reads in pieces of at most `n` bytes, at most `rounds` times, until nothing comes or a read
fails. -/
def drain (n : Nat) : (rounds : Nat) → Reader → Host → Bytes × Option IoError × Reader × Host
  | 0, r, h => ([], none, r, h)
  | rounds + 1, r, h =>
    match r.read h n with
    | (.error e, r, h) => ([], some e, r, h)
    | (.ok [], r, h) => ([], none, r, h)
    | (.ok taken, r, h) =>
      let (more, fault, r, h) := drain n rounds r h
      (taken ++ more, fault, r, h)

/-- Gives the stream back to its owner, if there is one. -/
def close (r : Reader) (h : Host) : Host :=
  match r with
  | settled _ | file .. => h
  | stream id _ =>
    match h.streams[id]? with
    | none => h
    | some slot => h.setSlot id { slot with busy := false }

/-- Reads to the end: the bytes that came and the failure that stopped them, if any. -/
def readToEnd (r : Reader) (h : Host) : Bytes × Option IoError × Host :=
  let (bytes, fault, r, h) := r.drain (r.bound + 1) (r.bound + 1) h
  (bytes, fault, r.close h)

end Reader

end ArchiveUpdate
