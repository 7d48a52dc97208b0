import ArchiveUpdate.Text.Segments
import ArchiveUpdate.Text.Utf8

/-!
# Paths on disk

A `DiskPath` is a string of bytes.  Read as components, runs of slashes count as one, slashes at the
end count as nothing, and a single dot counts only at the very beginning of a relative path.
`DiskPath.normal` removes single dots and lets each double dot cancel the name before it, without
looking at the disk.
-/

set_option autoImplicit false

namespace ArchiveUpdate

/-- The byte of a slash. -/
def slashByte : UInt8 := 0x2F

/-- The byte of a dot. -/
def dotByte : UInt8 := 0x2E

/-- A path on disk. -/
structure DiskPath where
  bytes : Bytes
  deriving DecidableEq, Repr, Inhabited

/-- The name of an entry of a directory. -/
structure FileName where
  bytes : Bytes
  ne_nil : bytes ≠ []
  ne_dot : bytes ≠ [dotByte]
  ne_dots : bytes ≠ [dotByte, dotByte]
  slash : slashByte ∉ bytes
  nul : 0 ∉ bytes
  deriving DecidableEq, Repr

namespace FileName

/-- The name with these bytes, if they can be one. -/
def ofBytes? (bytes : Bytes) : Option FileName :=
  if h : bytes ≠ [] ∧ bytes ≠ [dotByte] ∧ bytes ≠ [dotByte, dotByte] ∧ slashByte ∉ bytes ∧
      0 ∉ bytes then
    some ⟨bytes, h.1, h.2.1, h.2.2.1, h.2.2.2.1, h.2.2.2.2⟩
  else none

end FileName

namespace DiskPath

/-- A part of a path. -/
inductive Component where
  /-- The slash at the beginning. -/
  | root
  /-- A single dot. -/
  | here
  /-- A double dot. -/
  | up
  /-- Anything else. -/
  | name (bytes : Bytes)
  deriving DecidableEq, Repr

/-- The path of a text. -/
def ofString (s : String) : DiskPath := ⟨Utf8.encode s.toList⟩

/-- The path as shown to a reader. -/
def text (p : DiskPath) : String := Utf8.lossy p.bytes

/-- Whether the path begins at the root of the disk. -/
def isAbsolute (p : DiskPath) : Bool := p.bytes.head? = some slashByte

/-- The component that a piece between slashes stands for. -/
def Component.ofPiece? (piece : Bytes) : Option Component :=
  if piece = [] then none
  else if piece = [dotByte] then some .here
  else if piece = [dotByte, dotByte] then some .up
  else some (.name piece)

/-- The components of a path. -/
def components (p : DiskPath) : List Component :=
  let parts := (Segments.split slashByte p.bytes).filterMap Component.ofPiece?
  if p.isAbsolute then .root :: parts.filter (· ≠ .here)
  else match parts with
    | .here :: rest => .here :: rest.filter (· ≠ .here)
    | _ => parts.filter (· ≠ .here)

/-- One step of normalisation; what was kept so far stands with its last component in front. -/
def Component.push : List Component → Component → List Component
  | kept, .here => kept
  | .name _ :: kept, .up => kept
  | .root :: kept, .up => .root :: kept
  | kept, c => c :: kept

/-- The components that are left when dots are resolved without looking at the disk. -/
def normal (p : DiskPath) : List Component := (p.components.foldl Component.push []).reverse

/-- Whether the path begins below the current directory and only descends. -/
def isPlain (p : DiskPath) : Bool :=
  p.components.all fun
    | .name _ => true
    | _ => false

/-- Whether a dot component occurs in the path. -/
def hasDots (p : DiskPath) : Bool :=
  p.components.any fun
    | .here | .up => true
    | _ => false

/-- The path of an entry of the directory at a path. -/
def child (dir : DiskPath) (name : FileName) : DiskPath :=
  match dir.bytes.getLast? with
  | none => ⟨name.bytes⟩
  | some last =>
    if last = slashByte then ⟨dir.bytes ++ name.bytes⟩
    else ⟨dir.bytes ++ slashByte :: name.bytes⟩

end DiskPath

end ArchiveUpdate
