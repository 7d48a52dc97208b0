/-!
# Bytes as text

Names on disk are bytes and need not be text.  `scan` reads bytes as UTF-8 and reports each
character and each maximal run of bytes that can still begin a character but does not complete one.
`decode?` accepts bytes without such runs only; `lossy` shows each run as a replacement character.
Encoding and scanning undo each other (`scan_encode`).
-/

set_option autoImplicit false

namespace ArchiveUpdate

/-- Uninterpreted data. -/
abbrev Bytes := List UInt8

namespace Utf8

/-- The bytes of a text. -/
def encode (cs : List Char) : Bytes := cs.flatMap String.utf8EncodeChar

/-- A character of which some bytes are still owed: the bits read so far, the number of bytes owed,
and the bounds of the next one. -/
structure Pending where
  bits : Nat
  owed : Nat
  low : Nat
  high : Nat
  deriving Repr

/-- What a byte is at the beginning of a character. -/
inductive Lead where
  /-- A whole character. -/
  | char (c : Char)
  /-- The first of several bytes. -/
  | more (p : Pending)
  /-- No beginning of a character. -/
  | bad
  deriving Repr

/-- What a byte begins.  The bounds of the second byte keep out overlong forms, surrogates and
numbers above the last character. -/
def lead (b : UInt8) : Lead :=
  let n := b.toNat
  if n < 0x80 then .char (Char.ofNat n)
  else if n < 0xC2 then .bad
  else if n < 0xE0 then .more ⟨n - 0xC0, 1, 0x80, 0xBF⟩
  else if n < 0xF0 then
    .more ⟨n - 0xE0, 2, if n = 0xE0 then 0xA0 else 0x80, if n = 0xED then 0x9F else 0xBF⟩
  else if n < 0xF5 then
    .more ⟨n - 0xF0, 3, if n = 0xF0 then 0x90 else 0x80, if n = 0xF4 then 0x8F else 0xBF⟩
  else .bad

/-- The characters of the bytes in order, with `none` for each run that is no character. -/
def scan : Option Pending → Bytes → List (Option Char)
  | none, [] => []
  | some _, [] => [none]
  | none, b :: bs =>
    match lead b with
    | .char c => some c :: scan none bs
    | .more p => scan (some p) bs
    | .bad => none :: scan none bs
  | some p, b :: bs =>
    if p.low ≤ b.toNat ∧ b.toNat ≤ p.high then
      let bits := p.bits * 64 + (b.toNat - 0x80)
      if p.owed ≤ 1 then some (Char.ofNat bits) :: scan none bs
      else scan (some ⟨bits, p.owed - 1, 0x80, 0xBF⟩) bs
    else
      none :: match lead b with
        | .char c => some c :: scan none bs
        | .more p => scan (some p) bs
        | .bad => none :: scan none bs

/-- The text of the bytes, if they are text. -/
def decode? (bs : Bytes) : Option String :=
  ((scan none bs).mapM id).map String.ofList

/-- The bytes as text for a reader, with a replacement character for each run that is none. -/
def lossy (bs : Bytes) : String :=
  String.ofList ((scan none bs).map (·.getD '\uFFFD'))

/-- Scanning the bytes of a character gives the character and goes on behind it. -/
theorem scan_encodeChar (c : Char) (bs : Bytes) :
    scan none (String.utf8EncodeChar c ++ bs) = some c :: scan none bs := by
  have hv : c.val.toNat < 0xD800 ∨ 0xDFFF < c.val.toNat ∧ c.val.toNat < 0x110000 := c.valid
  have hc : Char.ofNat c.val.toNat = c := Char.ofNat_toNat c
  unfold String.utf8EncodeChar
  generalize hn : c.val.toNat = n at hv hc
  have byte : ∀ k, k < 256 → (UInt8.ofNat k).toNat = k := fun k hk => by
    simp; omega
  simp only []
  split
  · have hb := byte n (by omega)
    simp only [List.cons_append, List.nil_append, scan, lead, hb]
    rw [if_pos (by omega), hc]
  · split
    · have h1 := byte (n / 64 % 0x20 + 0xc0) (by omega)
      have h2 := byte (n % 0x40 + 0x80) (by omega)
      simp only [List.cons_append, List.nil_append, scan, lead, h1, h2]
      rw [if_neg (by omega), if_neg (by omega), if_pos (by omega)]
      simp only
      rw [if_pos (by omega), if_pos (by omega)]
      rw [show (n / 64 % 32 + 192 - 192) * 64 + (n % 64 + 128 - 128) = n by omega, hc]
    · split
      · have h1 := byte (n / 4096 % 0x10 + 0xe0) (by omega)
        have h2 := byte (n / 64 % 0x40 + 0x80) (by omega)
        have h3 := byte (n % 0x40 + 0x80) (by omega)
        simp only [List.cons_append, List.nil_append, scan, lead, h1, h2, h3]
        rw [if_neg (by omega), if_neg (by omega), if_neg (by omega), if_pos (by omega)]
        simp only
        rw [if_pos (by split <;> split <;> omega), if_neg (by omega), if_pos (by omega),
          if_pos (by omega)]
        rw [show ((n / 4096 % 16 + 224 - 224) * 64 + (n / 64 % 64 + 128 - 128)) * 64 +
          (n % 64 + 128 - 128) = n by omega, hc]
      · have h1 := byte (n / 262144 % 0x08 + 0xf0) (by omega)
        have h2 := byte (n / 4096 % 0x40 + 0x80) (by omega)
        have h3 := byte (n / 64 % 0x40 + 0x80) (by omega)
        have h4 := byte (n % 0x40 + 0x80) (by omega)
        simp only [List.cons_append, List.nil_append, scan, lead, h1, h2, h3, h4]
        rw [if_neg (by omega), if_neg (by omega), if_neg (by omega), if_neg (by omega),
          if_pos (by omega)]
        simp only
        rw [if_pos (by split <;> split <;> omega), if_neg (by omega), if_pos (by omega),
          if_neg (by omega), if_pos (by omega), if_pos (by omega)]
        rw [show (((n / 262144 % 8 + 240 - 240) * 64 + (n / 4096 % 64 + 128 - 128)) * 64 +
          (n / 64 % 64 + 128 - 128)) * 64 + (n % 64 + 128 - 128) = n by omega, hc]

/-- Scanning the bytes of a text gives its characters. -/
theorem scan_encode (cs : List Char) : scan none (encode cs) = cs.map some := by
  induction cs with
  | nil => rfl
  | cons c cs ih =>
    rw [encode, List.flatMap_cons, scan_encodeChar, ← encode, ih, List.map_cons]

/-- The bytes of a text are read as that text. -/
theorem decode?_encode (cs : List Char) : decode? (encode cs) = some (String.ofList cs) := by
  have : ∀ l : List Char, (l.map some).mapM id = some l := by
    intro l
    induction l with
    | nil => rfl
    | cons c l ih => simp [ih]
  simp [decode?, scan_encode, this]

/-- The number of bytes that characters take. -/
def size : List Char → Nat
  | [] => 0
  | c :: cs => c.utf8Size + size cs

/-- Two lists of characters in a row take the bytes of both. -/
theorem size_append (cs ds : List Char) : size (cs ++ ds) = size cs + size ds := by
  induction cs with
  | nil => rw [List.nil_append, size, Nat.zero_add]
  | cons c cs ih => rw [List.cons_append, size, size, ih, Nat.add_assoc]

/-- A text takes the bytes of its characters. -/
theorem utf8ByteSize_ofList (cs : List Char) : (String.ofList cs).utf8ByteSize = size cs := by
  induction cs with
  | nil => rfl
  | cons c cs ih =>
    have cut : String.ofList (c :: cs) = String.singleton c ++ String.ofList cs := by
      rw [String.singleton_eq_ofList, ← String.ofList_append, List.singleton_append]
    rw [cut, String.utf8ByteSize_append, ih, String.utf8ByteSize_singleton, size]

end Utf8

end ArchiveUpdate
