import ArchiveUpdate.Text.Utf8

/-!
# How many bytes a text for readers takes

Bytes that are shown as text with `Utf8.lossy` come back as they were if they are text
(`of_decode?`).  Otherwise each run that is no character gives way to a replacement character
of three bytes, and as no run is longer than that, the text never takes less than the bytes it is
made of (`length_le_encode_lossy`).
-/

set_option autoImplicit false

namespace ArchiveUpdate.Utf8

/-- These bytes were read and can still begin a character. -/
inductive Begun : Bytes → Pending → Prop
  | lead {b : UInt8} {p : Pending} (h : lead b = .more p) : Begun [b] p
  | next {pre : Bytes} {p : Pending} {b : UInt8} (h : Begun pre p) (howed : 1 < p.owed)
      (hlow : p.low ≤ b.toNat) (hhigh : b.toNat ≤ p.high) :
      Begun (pre ++ [b]) ⟨p.bits * 64 + (b.toNat - 0x80), p.owed - 1, 0x80, 0xBF⟩

section

variable {b : UInt8} {p : Pending} {pre : Bytes}

/-- A byte that is a character by itself is one of the first 128. -/
theorem eq_of_lead_char {c : Char} (h : lead b = .char c) :
    b.toNat < 0x80 ∧ c = Char.ofNat b.toNat := by
  simp only [lead] at h
  split at h
  · rename_i hsmall
    cases h
    exact ⟨hsmall, rfl⟩
  · repeat' split at h
    all_goals cases h

/-- What is owed behind a first byte of two, three or four. -/
theorem eq_of_lead_more (h : lead b = .more p) :
    (0xC2 ≤ b.toNat ∧ b.toNat < 0xE0 ∧ p = ⟨b.toNat - 0xC0, 1, 0x80, 0xBF⟩) ∨
    (0xE0 ≤ b.toNat ∧ b.toNat < 0xF0 ∧ p = ⟨b.toNat - 0xE0, 2,
      if b.toNat = 0xE0 then 0xA0 else 0x80, if b.toNat = 0xED then 0x9F else 0xBF⟩) ∨
    (0xF0 ≤ b.toNat ∧ b.toNat < 0xF5 ∧ p = ⟨b.toNat - 0xF0, 3,
      if b.toNat = 0xF0 then 0x90 else 0x80, if b.toNat = 0xF4 then 0x8F else 0xBF⟩) := by
  simp only [lead] at h
  split at h
  · cases h
  split at h
  · cases h
  split at h
  · injection h with hp
    exact .inl ⟨by omega, by omega, hp.symm⟩
  split at h
  · injection h with hp
    exact .inr (.inl ⟨by omega, by omega, hp.symm⟩)
  split at h
  · injection h with hp
    exact .inr (.inr ⟨by omega, by omega, hp.symm⟩)
  · cases h

/-- What was read of a character and what is owed to it are four bytes at most. -/
theorem Begun.length_add_owed (h : Begun pre p) :
    pre.length + p.owed ≤ 4 ∧ 0 < pre.length ∧ 0 < p.owed := by
  induction h with
  | lead h =>
    rcases eq_of_lead_more h with ⟨-, -, rfl⟩ | ⟨-, -, rfl⟩ | ⟨-, -, rfl⟩ <;> simp
  | next h howed _ _ ih =>
    simp only [List.length_append, List.length_singleton]
    omega

/-- The bytes of the character with a number. -/
theorem encodeChar_ofNat {n : Nat} (hvalid : n.isValidChar) :
    String.utf8EncodeChar (Char.ofNat n) =
      if n ≤ 0x7F then [UInt8.ofNat n]
      else if n ≤ 0x7FF then [UInt8.ofNat (n / 64 % 32 + 0xC0), UInt8.ofNat (n % 64 + 0x80)]
      else if n ≤ 0xFFFF then
        [UInt8.ofNat (n / 4096 % 16 + 0xE0), UInt8.ofNat (n / 64 % 64 + 0x80),
          UInt8.ofNat (n % 64 + 0x80)]
      else
        [UInt8.ofNat (n / 262144 % 8 + 0xF0), UInt8.ofNat (n / 4096 % 64 + 0x80),
          UInt8.ofNat (n / 64 % 64 + 0x80), UInt8.ofNat (n % 64 + 0x80)] := by
  have hnumber : (Char.ofNat n).val.toNat = n := by
    rw [Char.ofNat, dif_pos hvalid]
    rfl
  simp only [String.utf8EncodeChar, hnumber]

/-- The number of a byte is the number of no other. -/
theorem ofNat_eq {n : Nat} (h : n = b.toNat) : UInt8.ofNat n = b := by
  rw [h, UInt8.ofNat_toNat]

/-- What was read when one byte is owed still, and what it comes to: one byte of two, two of three
or three of four. -/
theorem Begun.last (h : Begun pre p) (howed : p.owed ≤ 1) :
    p.low = 0x80 ∧ p.high = 0xBF ∧
    ((∃ b₁ : UInt8, pre = [b₁] ∧ 0xC2 ≤ b₁.toNat ∧ b₁.toNat < 0xE0 ∧ p.bits = b₁.toNat - 0xC0) ∨
    (∃ b₁ b₂ : UInt8, pre = [b₁, b₂] ∧ 0xE0 ≤ b₁.toNat ∧ b₁.toNat < 0xF0 ∧
      0x80 ≤ b₂.toNat ∧ b₂.toNat ≤ 0xBF ∧ (b₁.toNat = 0xE0 → 0xA0 ≤ b₂.toNat) ∧
      (b₁.toNat = 0xED → b₂.toNat ≤ 0x9F) ∧
      p.bits = (b₁.toNat - 0xE0) * 64 + (b₂.toNat - 0x80)) ∨
    (∃ b₁ b₂ b₃ : UInt8, pre = [b₁, b₂, b₃] ∧ 0xF0 ≤ b₁.toNat ∧ b₁.toNat < 0xF5 ∧
      0x80 ≤ b₂.toNat ∧ b₂.toNat ≤ 0xBF ∧ 0x80 ≤ b₃.toNat ∧ b₃.toNat ≤ 0xBF ∧
      (b₁.toNat = 0xF0 → 0x90 ≤ b₂.toNat) ∧ (b₁.toNat = 0xF4 → b₂.toNat ≤ 0x8F) ∧
      p.bits = ((b₁.toNat - 0xF0) * 64 + (b₂.toNat - 0x80)) * 64 + (b₃.toNat - 0x80))) := by
  cases h with
  | @lead b₁ p h =>
    rcases eq_of_lead_more h with ⟨hle, hlt, rfl⟩ | ⟨-, -, rfl⟩ | ⟨-, -, rfl⟩
    · exact ⟨rfl, rfl, .inl ⟨b₁, rfl, hle, hlt, rfl⟩⟩
    · simp at howed
    · simp at howed
  | @next pre p b h howed' hlow hhigh =>
    cases h with
    | @lead b₁ p h =>
      rcases eq_of_lead_more h with ⟨-, -, rfl⟩ | ⟨hle, hlt, rfl⟩ | ⟨-, -, rfl⟩
      · simp at howed'
      · dsimp only at hlow hhigh
        refine ⟨rfl, rfl, .inr (.inl ⟨b₁, b, rfl, hle, hlt, ?_, ?_, ?_, ?_, rfl⟩)⟩
        · split at hlow <;> omega
        · split at hhigh <;> omega
        · intro hfirst
          rwa [if_pos hfirst] at hlow
        · intro hfirst
          rwa [if_pos hfirst] at hhigh
      · simp at howed
    | @next pre p b₂ h howed₂ hlow₂ hhigh₂ =>
      cases h with
      | @lead b₁ p h =>
        rcases eq_of_lead_more h with ⟨-, -, rfl⟩ | ⟨-, -, rfl⟩ | ⟨hle, hlt, rfl⟩
        · simp at howed₂
        · simp at howed'
        · dsimp only at hlow₂ hhigh₂
          refine ⟨rfl, rfl, .inr (.inr ⟨b₁, b₂, b, rfl, hle, hlt, ?_, ?_, hlow, hhigh, ?_, ?_,
            rfl⟩)⟩
          · split at hlow₂ <;> omega
          · split at hhigh₂ <;> omega
          · intro hfirst
            rwa [if_pos hfirst] at hlow₂
          · intro hfirst
            rwa [if_pos hfirst] at hhigh₂
      | next h howed₁ _ _ =>
        -- There is no character of five bytes.
        obtain ⟨hlength, hsome, -⟩ := h.length_add_owed
        dsimp only at howed' howed₂
        omega

/-- The byte that is owed last completes a character whose bytes are those that were read. -/
theorem Begun.complete (h : Begun pre p) (howed : p.owed ≤ 1) (hlow : p.low ≤ b.toNat)
    (hhigh : b.toNat ≤ p.high) :
    String.utf8EncodeChar (Char.ofNat (p.bits * 64 + (b.toNat - 0x80))) = pre ++ [b] := by
  obtain ⟨hl, hh, hread⟩ := h.last howed
  rw [hl] at hlow
  rw [hh] at hhigh
  rcases hread with ⟨b₁, rfl, _, _, hbits⟩ | ⟨b₁, b₂, rfl, _, _, _, _, _, _, hbits⟩ |
    ⟨b₁, b₂, b₃, rfl, _, _, _, _, _, _, _, _, hbits⟩
  · rw [encodeChar_ofNat (.inl (by omega)), if_neg (by omega), if_pos (by omega),
      ofNat_eq (b := b₁) (by omega), ofNat_eq (b := b) (by omega)]
    rfl
  · have hvalid : (p.bits * 64 + (b.toNat - 0x80)).isValidChar := by
      unfold Nat.isValidChar
      omega
    rw [encodeChar_ofNat hvalid, if_neg (by omega), if_neg (by omega), if_pos (by omega),
      ofNat_eq (b := b₁) (by omega), ofNat_eq (b := b₂) (by omega), ofNat_eq (b := b) (by omega)]
    rfl
  · have hvalid : (p.bits * 64 + (b.toNat - 0x80)).isValidChar := by
      unfold Nat.isValidChar
      omega
    rw [encodeChar_ofNat hvalid, if_neg (by omega), if_neg (by omega), if_neg (by omega),
      ofNat_eq (b := b₁) (by omega), ofNat_eq (b := b₂) (by omega), ofNat_eq (b := b₃) (by omega),
      ofNat_eq (b := b) (by omega)]
    rfl

/-- A byte that is a character by itself is encoded as itself. -/
theorem encodeChar_of_lead {c : Char} (h : lead b = .char c) : String.utf8EncodeChar c = [b] := by
  obtain ⟨hsmall, rfl⟩ := eq_of_lead_char h
  rw [encodeChar_ofNat (.inl (by omega)), if_pos (by omega), ofNat_eq rfl]

end

/-- What a scan found, as the bytes of a text for readers. -/
def shown (found : List (Option Char)) : Bytes := encode (found.map (·.getD '\uFFFD'))

/-- The text shown for bytes is encoded as what the scan of them shows. -/
theorem encode_lossy (bs : Bytes) : encode (lossy bs).toList = shown (scan none bs) := by
  rw [lossy, String.toList_ofList, shown]

/-- What is shown for a character comes before what is shown for those that follow. -/
theorem shown_cons (c? : Option Char) (found : List (Option Char)) :
    shown (c? :: found) = String.utf8EncodeChar (c?.getD '\uFFFD') ++ shown found := by
  rw [shown, List.map_cons, encode, List.flatMap_cons]
  rfl

/-- A fault is shown as a mark of three bytes. -/
theorem length_shown_none (found : List (Option Char)) :
    (shown (none :: found)).length = 3 + (shown found).length := by
  rw [shown_cons, List.length_append]
  rfl

/-- Whether some bytes of a character were read before or not, what is shown takes no less than all
that was read. -/
theorem length_le_shown (bs : Bytes) :
    bs.length ≤ (shown (scan none bs)).length ∧
      ∀ pre p, Begun pre p → pre.length + bs.length ≤ (shown (scan (some p) bs)).length := by
  induction bs with
  | nil =>
    refine ⟨Nat.zero_le _, ?_⟩
    intro pre p h
    obtain ⟨hlength, -, howed⟩ := h.length_add_owed
    rw [scan, length_shown_none, List.length_nil]
    omega
  | cons b bs ih =>
    obtain ⟨hfresh, hbegun⟩ := ih
    have hstart : (b :: bs).length ≤ (shown (scan none (b :: bs))).length := by
      rw [scan]
      cases hlead : lead b with
      | char c =>
        rw [shown_cons, Option.getD_some, encodeChar_of_lead hlead, List.singleton_append]
        exact Nat.succ_le_succ hfresh
      | more p =>
        have hrest := hbegun [b] p (.lead hlead)
        rwa [List.length_singleton, Nat.add_comm] at hrest
      | bad =>
        rw [length_shown_none, List.length_cons]
        omega
    refine ⟨hstart, ?_⟩
    intro pre p h
    rw [scan]
    by_cases hnext : p.low ≤ b.toNat ∧ b.toNat ≤ p.high
    · rw [if_pos hnext]
      by_cases howed : p.owed ≤ 1
      · simp only [if_pos howed]
        rw [shown_cons, Option.getD_some, h.complete howed hnext.1 hnext.2]
        simp only [List.length_append, List.length_cons]
        omega
      · simp only [if_neg howed]
        have hrest := hbegun _ _ (h.next (Nat.not_le.1 howed) hnext.1 hnext.2)
        rwa [List.length_append, List.length_singleton, Nat.add_assoc, Nat.add_comm 1] at hrest
    · rw [if_neg hnext, length_shown_none]
      obtain ⟨hlength, -, howed⟩ := h.length_add_owed
      rw [scan] at hstart
      omega

/-- If a scan finds characters only, their bytes are those that were read. -/
theorem encode_of_scan (bs : Bytes) :
    (∀ cs, scan none bs = cs.map some → encode cs = bs) ∧
      ∀ pre p cs, Begun pre p → scan (some p) bs = cs.map some → encode cs = pre ++ bs := by
  induction bs with
  | nil =>
    constructor
    · intro cs hcs
      rw [scan, eq_comm, List.map_eq_nil_iff] at hcs
      rw [hcs]
      rfl
    · intro pre p cs _ hcs
      cases cs <;> simp [scan] at hcs
  | cons b bs ih =>
    obtain ⟨hfresh, hbegun⟩ := ih
    constructor
    · intro cs hcs
      rw [scan] at hcs
      cases hlead : lead b with
      | char c =>
        simp only [hlead] at hcs
        obtain ⟨c', cs, rfl, hc, hrest⟩ := List.map_eq_cons_iff.1 hcs.symm
        rw [encode, List.flatMap_cons, Option.some.inj hc, encodeChar_of_lead hlead, ← encode,
          hfresh cs hrest.symm]
        rfl
      | more p =>
        simp only [hlead] at hcs
        exact hbegun [b] p cs (.lead hlead) hcs
      | bad =>
        simp only [hlead] at hcs
        cases cs <;> simp at hcs
    · intro pre p cs h hcs
      rw [scan] at hcs
      by_cases hnext : p.low ≤ b.toNat ∧ b.toNat ≤ p.high
      · rw [if_pos hnext] at hcs
        by_cases howed : p.owed ≤ 1
        · simp only [if_pos howed] at hcs
          obtain ⟨c', cs, rfl, hc, hrest⟩ := List.map_eq_cons_iff.1 hcs.symm
          rw [encode, List.flatMap_cons, Option.some.inj hc, h.complete howed hnext.1 hnext.2,
            ← encode, hfresh cs hrest.symm, List.append_assoc]
          rfl
        · simp only [if_neg howed] at hcs
          have hrest := hbegun _ _ cs (h.next (Nat.not_le.1 howed) hnext.1 hnext.2) hcs
          rwa [List.append_assoc, List.singleton_append] at hrest
      · rw [if_neg hnext] at hcs
        cases cs <;> simp at hcs

/-- If every find is a character, the finds are these characters. -/
theorem map_some_of_mapM {found : List (Option Char)} {cs : List Char}
    (h : found.mapM id = some cs) : found = cs.map some := by
  induction found generalizing cs with
  | nil =>
    cases h
    rfl
  | cons c? found ih =>
    cases c? with
    | none => simp at h
    | some c =>
      obtain ⟨rest, hrest, rfl⟩ : ∃ rest, found.mapM id = some rest ∧ c :: rest = cs := by
        simpa [Option.bind_eq_some_iff] using h
      rw [ih hrest, List.map_cons]

/-- Bytes that are text are the bytes of that text, and the text that is shown of them. -/
theorem of_decode? {bs : Bytes} {text : String} (h : decode? bs = some text) :
    encode text.toList = bs ∧ lossy bs = text := by
  obtain ⟨cs, hcs, rfl⟩ := Option.map_eq_some_iff.1 h
  have hfound := map_some_of_mapM hcs
  refine ⟨?_, ?_⟩
  · rw [String.toList_ofList]
    exact (encode_of_scan bs).1 cs hfound
  · rw [lossy, hfound, List.map_map]
    simp [Function.comp_def]

/-- Bytes that are text are shown as that text. -/
theorem encode_lossy_of_decode? {bs : Bytes} {text : String} (h : decode? bs = some text) :
    encode (lossy bs).toList = bs := by
  obtain ⟨hbytes, hlossy⟩ := of_decode? h
  rw [hlossy, hbytes]

/-- What is shown of bytes takes no less than they do. -/
theorem length_le_encode_lossy (bs : Bytes) : bs.length ≤ (encode (lossy bs).toList).length := by
  rw [encode_lossy]
  exact (length_le_shown bs).1

/-- A byte that is no text by itself takes three when it is shown. -/
example : decode? [0xFF] = none ∧ (encode (lossy [0xFF]).toList).length = 3 := by decide +kernel

end ArchiveUpdate.Utf8
