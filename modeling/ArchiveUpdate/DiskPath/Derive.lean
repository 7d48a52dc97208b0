import ArchiveUpdate.ItemPath
import ArchiveUpdate.DiskPath

/-!
# In-archive paths made from disk paths

Two derivations: `ItemPath.ofDisk?` keeps the whole path only when it plainly descends from the
current directory and falls back on the last name otherwise; `ItemPath.ofDiskNames?` always keeps
every name.  Both work on the normal form of the disk path, answer nothing when no name is left,
and refuse a name that is not text.
-/

set_option autoImplicit false

namespace ArchiveUpdate.ItemPath

/-- The failure to read a part of a disk path as text. -/
def notText (p : DiskPath) : UpdateError := .invalidItemPath s!"non UTF-8 path: {p.text}"

/-- The failure to find any name in a disk path. -/
def noName (p : DiskPath) : UpdateError :=
  .invalidItemPath s!"cannot derive an archive name from {p.text}"

/-- A name of a disk path as text. -/
def nameText (p : DiskPath) (name : Bytes) : Except UpdateError String :=
  match Utf8.decode? name with
  | some s => .ok s
  | none => .error (notText p)

/-- The names left in the normal form of a disk path, as text. -/
def diskNames (p : DiskPath) : Except UpdateError (List String) :=
  (p.normal.filterMap fun
    | .name bytes => some bytes
    | _ => none).mapM (nameText p)

/-- The path made of all names of a disk path. -/
def ofDiskNames? (p : DiskPath) : Except UpdateError (Option ItemPath) := do
  match ← diskNames p with
  | [] => pure none
  | names => some <$> parse ("/".intercalate names)

/-- The path that stands for a disk path: its last name, below `base` if one is given; without one,
a path that plainly descends from the current directory keeps all its names. -/
def ofDisk? (p : DiskPath) (base : Option ItemPath) : Except UpdateError (Option ItemPath) :=
  match p.normal.getLast? with
  | some (.name bytes) => do
    let last ← nameText p bytes
    match base with
    | some base => some <$> base.join last
    | none =>
      if p.isAbsolute || p.hasDots then some <$> parse last
      else some <$> parse ("/".intercalate (← diskNames p))
  | _ => pure none

/-- The path for a single disk object: the given name, or what the disk path yields when the name is
empty. -/
def ofGivenName (p : DiskPath) (name : String) : Except UpdateError ItemPath := do
  if name.isEmpty then
    match ← ofDisk? p none with
    | some path => pure path
    | none => throw (noName p)
  else parse name

end ArchiveUpdate.ItemPath
