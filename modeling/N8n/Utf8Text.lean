import Mathlib.Data.List.Basic
import Mathlib.Tactic.Common

/-! UTF-8 as the text encoder and the text decoder of the platform have it. The
decoder reads byte by byte, puts U+FFFD where a sequence breaks off, and leaves a
byte order mark at the start of the text out. -/

namespace N8n.Utf8Text

open List

def encode (text : String) : List UInt8 := text.toList.flatMap String.utf8EncodeChar

def replacementCharacter : Char := '\uFFFD'

def byteOrderMark : Char := '\uFEFF'

/-- A code point of which `needed` bytes are still to come, the next one within bounds. -/
structure Pending where
  codePoint : ℕ
  needed : ℕ
  lower : ℕ
  upper : ℕ
  deriving DecidableEq

/-- What is written, and the state left, after a byte that begins a code point. -/
def beginCodePoint (byte : ℕ) : List Char × Option Pending :=
  if byte ≤ 0x7F then ([Char.ofNat byte], none)
  else if 0xC2 ≤ byte ∧ byte ≤ 0xDF then ([], some ⟨byte % 0x20, 1, 0x80, 0xBF⟩)
  else if 0xE0 ≤ byte ∧ byte ≤ 0xEF then
    ([], some ⟨byte % 0x10, 2, if byte = 0xE0 then 0xA0 else 0x80,
      if byte = 0xED then 0x9F else 0xBF⟩)
  else if 0xF0 ≤ byte ∧ byte ≤ 0xF4 then
    ([], some ⟨byte % 0x08, 3, if byte = 0xF0 then 0x90 else 0x80,
      if byte = 0xF4 then 0x8F else 0xBF⟩)
  else ([replacementCharacter], none)

def continueCodePoint (pending : Pending) (byte : ℕ) : List Char × Option Pending :=
  let codePoint := pending.codePoint * 0x40 + byte % 0x40
  if pending.needed = 1 then ([Char.ofNat codePoint], none)
  else ([], some ⟨codePoint, pending.needed - 1, 0x80, 0xBF⟩)

def readByte : Option Pending → ℕ → List Char × Option Pending
  | none, byte => beginCodePoint byte
  | some pending, byte =>
    if pending.lower ≤ byte ∧ byte ≤ pending.upper then continueCodePoint pending byte
    else
      -- the broken sequence is replaced and the byte read again
      let (written, next) := beginCodePoint byte
      (replacementCharacter :: written, next)

def decodeFrom : Option Pending → List UInt8 → List Char
  | none, [] => []
  | some _, [] => [replacementCharacter]
  | state, byte :: bytes =>
    (readByte state byte.toNat).1 ++ decodeFrom (readByte state byte.toNat).2 bytes

def dropByteOrderMark : List Char → List Char
  | [] => []
  | c :: text => if c = byteOrderMark then text else c :: text

def decode (bytes : List UInt8) : String := String.ofList (dropByteOrderMark (decodeFrom none bytes))

theorem decodeFrom_cons (state : Option Pending) (byte : UInt8) (bytes : List UInt8) :
    decodeFrom state (byte :: bytes) =
      (readByte state byte.toNat).1 ++ decodeFrom (readByte state byte.toNat).2 bytes := by
  cases state <;> rfl

section CodePoints

variable {pending : Pending} {byte : UInt8}

theorem decodeFrom_begin {lead : UInt8} (next : Pending)
    (taken : beginCodePoint lead.toNat = ([], some next)) (bytes : List UInt8) :
    decodeFrom none (lead :: bytes) = decodeFrom (some next) bytes := by
  rw [decodeFrom_cons, readByte, taken, nil_append]

theorem decodeFrom_continue (bytes : List UInt8) (within : pending.lower ≤ byte.toNat ∧ byte.toNat ≤ pending.upper)
    (more : pending.needed ≠ 1) :
    decodeFrom (some pending) (byte :: bytes) =
      decodeFrom (some ⟨pending.codePoint * 0x40 + byte.toNat % 0x40, pending.needed - 1, 0x80, 0xBF⟩) bytes := by
  rw [decodeFrom_cons, readByte, if_pos within, continueCodePoint, if_neg more, nil_append]

theorem decodeFrom_last (bytes : List UInt8) (within : pending.lower ≤ byte.toNat ∧ byte.toNat ≤ pending.upper)
    (last : pending.needed = 1) :
    decodeFrom (some pending) (byte :: bytes) =
      Char.ofNat (pending.codePoint * 0x40 + byte.toNat % 0x40) :: decodeFrom none bytes := by
  rw [decodeFrom_cons, readByte, if_pos within, continueCodePoint, if_pos last]
  rfl

end CodePoints
variable {n : ℕ}

theorem toNat_ofNat_of_lt (small : n < 256) : (UInt8.ofNat n).toNat = n := by
  rw [UInt8.toNat_ofNat']
  exact Nat.mod_eq_of_lt small

theorem beginCodePoint_two (lower : 2 ≤ n) (upper : n < 32) :
    beginCodePoint (n + 192) = ([], some ⟨n, 1, 0x80, 0xBF⟩) := by
  have rest : (n + 192) % 32 = n := by omega
  simp only [beginCodePoint, rest]
  rw [if_neg (by omega), if_pos (by omega)]

theorem beginCodePoint_three (upper : n < 16) : beginCodePoint (n + 224) =
      ([], some ⟨n, 2, if n = 0 then 0xA0 else 0x80, if n = 13 then 0x9F else 0xBF⟩) := by
  have rest : (n + 224) % 16 = n := by omega
  have first : n + 224 = 224 ↔ n = 0 := by omega
  have surrogate : n + 224 = 237 ↔ n = 13 := by omega
  simp only [beginCodePoint, rest, first, surrogate]
  rw [if_neg (by omega), if_neg (by omega), if_pos (by omega)]

theorem beginCodePoint_four (upper : n ≤ 4) : beginCodePoint (n + 240) =
      ([], some ⟨n, 3, if n = 0 then 0x90 else 0x80, if n = 4 then 0x8F else 0xBF⟩) := by
  have rest : (n + 240) % 8 = n := by omega
  have first : n + 240 = 240 ↔ n = 0 := by omega
  have last : n + 240 = 244 ↔ n = 4 := by omega
  simp only [beginCodePoint, rest, first, last]
  rw [if_neg (by omega), if_neg (by omega), if_neg (by omega), if_pos (by omega)]

theorem toNat_valid (c : Char) : c.val.toNat < 0xD800 ∨ 0xDFFF < c.val.toNat ∧ c.val.toNat < 0x110000 := c.valid

theorem decodeFrom_encodeChar (c : Char) (bytes : List UInt8) :
    decodeFrom none (String.utf8EncodeChar c ++ bytes) = c :: decodeFrom none bytes := by
  have valid := toNat_valid c
  have back : Char.ofNat c.val.toNat = c := c.ofNat_toNat
  simp only [String.utf8EncodeChar]
  generalize c.val.toNat = v at valid back ⊢
  split_ifs with one two three
  · rw [singleton_append, decodeFrom_cons, readByte, toNat_ofNat_of_lt (by omega),
      beginCodePoint, if_pos one, back]
    rfl
  · have lead := toNat_ofNat_of_lt (n := v / 64 % 32 + 192) (by omega)
    have tail := toNat_ofNat_of_lt (n := v % 64 + 128) (by omega)
    simp only [cons_append, nil_append]
    rw [decodeFrom_begin _ (by rw [lead]; exact beginCodePoint_two (by omega) (by omega)),
      decodeFrom_last _ (by simp only [tail]; omega) rfl, tail, ← back]
    congr 2
    dsimp only
    omega
  · have lead := toNat_ofNat_of_lt (n := v / 4096 % 16 + 224) (by omega)
    have middle := toNat_ofNat_of_lt (n := v / 64 % 64 + 128) (by omega)
    have tail := toNat_ofNat_of_lt (n := v % 64 + 128) (by omega)
    simp only [cons_append, nil_append]
    rw [decodeFrom_begin _ (by rw [lead]; exact beginCodePoint_three (by omega)),
      decodeFrom_continue _ (by simp only [middle]; split_ifs <;> omega) (by simp), middle,
      decodeFrom_last _ (by simp only [tail]; omega) rfl, tail, ← back]
    congr 2
    dsimp only
    omega
  · have lead := toNat_ofNat_of_lt (n := v / 262144 % 8 + 240) (by omega)
    have second := toNat_ofNat_of_lt (n := v / 4096 % 64 + 128) (by omega)
    have third := toNat_ofNat_of_lt (n := v / 64 % 64 + 128) (by omega)
    have tail := toNat_ofNat_of_lt (n := v % 64 + 128) (by omega)
    simp only [cons_append, nil_append]
    rw [decodeFrom_begin _ (by rw [lead]; exact beginCodePoint_four (by omega)),
      decodeFrom_continue _ (by simp only [second]; split_ifs <;> omega) (by simp), second,
      decodeFrom_continue _ (by simp only [third]; omega) (by simp), third,
      decodeFrom_last _ (by simp only [tail]; omega) rfl, tail, ← back]
    congr 2
    dsimp only
    omega

theorem decodeFrom_encode (text : String) : decodeFrom none (encode text) = text.toList := by
  rw [encode]
  induction text.toList with
  | nil => rfl
  | cons c rest ih => rw [flatMap_cons, decodeFrom_encodeChar, ih]

theorem decode_encode (text : String) : decode (encode text) = String.ofList (dropByteOrderMark text.toList) := by
  rw [decode, decodeFrom_encode]

theorem decode_encode_eq_iff (text : String) :
    decode (encode text) = text ↔ text.toList.head? ≠ some byteOrderMark := by
  rw [decode_encode, ← String.toList_inj, String.toList_ofList]
  cases text.toList with
  | nil => simp [dropByteOrderMark]
  | cons c rest =>
    rw [dropByteOrderMark]
    split_ifs with mark
    · simp [mark]
    · simpa using mark

end N8n.Utf8Text
