import ArchiveUpdate.Error
import ArchiveUpdate.Text.Utf8

/-!
# What an opened source delivers

A source that was opened and whose content is settled by then delivers its bytes in order and then
either ends or keeps failing.
-/

set_option autoImplicit false

namespace ArchiveUpdate

/-- The bytes that a source delivers, and the failure that follows them, if any. -/
structure Content where
  bytes : Bytes
  fault : Option IoError := none
  deriving DecidableEq, Repr, Inhabited

namespace Content

/-- Takes at most `n` bytes from the front; behind the last byte the source ends, which shows as an
empty answer, or fails. -/
def read (c : Content) (n : Nat) : Except IoError Bytes × Content :=
  match c.bytes, c.fault with
  | [], some e => (.error e, c)
  | bytes, _ => (.ok (bytes.take n), { c with bytes := bytes.drop n })

end Content

end ArchiveUpdate
