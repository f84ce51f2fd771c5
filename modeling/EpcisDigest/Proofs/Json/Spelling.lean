import EpcisDigest.Json.StringText
import EpcisDigest.Proofs.Text.Utf8
import Mathlib.Logic.Basic

namespace EpcisDigest.Json

structure HexDigit where
  value : Fin 16
  isUpper : Bool

namespace HexDigit

def byte (digit : HexDigit) : UInt8 :=
  UInt8.ofNat <|
    if digit.value.val < 10 then 0x30 + digit.value.val
    else (if digit.isUpper then 0x41 else 0x61) + (digit.value.val - 10)

theorem hexValue?_byte (digit : HexDigit) : hexValue? digit.byte = some digit.value.val := by
  obtain ⟨value, isUpper⟩ := digit
  revert value isUpper
  decide

theorem exists_byte_of_hexValue? {b : UInt8} {n : Nat} (h : hexValue? b = some n) :
    ∃ digit : HexDigit, digit.byte = b := by
  unfold hexValue? at h
  dsimp only at h
  split at h
  · refine ⟨⟨⟨b.toNat - 0x30, by omega⟩, false⟩, UInt8.toNat_inj.mp ?_⟩
    rw [byte, UInt8.toNat_ofNat', if_pos (by dsimp only; omega)]
    dsimp only
    omega
  · split at h
    · refine ⟨⟨⟨b.toNat - 0x41 + 10, by omega⟩, true⟩, UInt8.toNat_inj.mp ?_⟩
      rw [byte, UInt8.toNat_ofNat', if_neg (by dsimp only; omega), if_pos rfl]
      dsimp only
      omega
    · split at h
      · refine ⟨⟨⟨b.toNat - 0x61 + 10, by omega⟩, false⟩, UInt8.toNat_inj.mp ?_⟩
        rw [byte, UInt8.toNat_ofNat', if_neg (by dsimp only; omega), if_neg Bool.false_ne_true]
        dsimp only
        omega
      · cases h

end HexDigit

structure HexCode where
  first : HexDigit
  second : HexDigit
  third : HexDigit
  fourth : HexDigit

namespace HexCode

def bytes (code : HexCode) : List UInt8 :=
  [code.first.byte, code.second.byte, code.third.byte, code.fourth.byte]

def value (code : HexCode) : Nat :=
  ((code.first.value.val * 16 + code.second.value.val) * 16 + code.third.value.val) * 16 +
    code.fourth.value.val

end HexCode

inductive ShortEscape where
  | quote | backslash | slash | backspace | formFeed | lineFeed | carriageReturn | tab

namespace ShortEscape

def letter : ShortEscape → UInt8
  | quote => 0x22
  | backslash => 0x5C
  | slash => 0x2F
  | backspace => 0x62
  | formFeed => 0x66
  | lineFeed => 0x6E
  | carriageReturn => 0x72
  | tab => 0x74

def meaning : ShortEscape → Char
  | quote => '"'
  | backslash => '\\'
  | slash => '/'
  | backspace => '\x08'
  | formFeed => '\x0c'
  | lineFeed => '\n'
  | carriageReturn => '\r'
  | tab => '\t'

theorem latin1_eq_iff {b : UInt8} {c : Char} (small : c.toNat < 256) :
    Text.latin1 b = c ↔ b = UInt8.ofNat c.toNat := by
  have bound := b.toNat_lt
  have code : (Text.latin1 b).toNat = b.toNat := by
    rw [Text.latin1, Char.ofNat, dif_pos (Or.inl (by omega))]
    rfl
  constructor
  · intro h
    rw [← h, code, UInt8.ofNat_toNat]
  · intro h
    apply Char.toNat_inj.mp
    rw [code, h, UInt8.toNat_ofNat']
    omega

theorem shortEscape?_letter (escape : ShortEscape) :
    ∃ meant, shortEscape? escape.letter = some meant ∧ String.utf8EncodeChar escape.meaning = [meant] := by
  cases escape <;> exact ⟨_, rfl, rfl⟩

theorem exists_letter_of_shortEscape? {b meant : UInt8} (h : shortEscape? b = some meant) :
    ∃ escape : ShortEscape, escape.letter = b := by
  unfold shortEscape? at h
  split at h
  · rename_i c; exact ⟨quote, ((latin1_eq_iff (by decide)).mp c).symm⟩
  · rename_i c; exact ⟨backslash, ((latin1_eq_iff (by decide)).mp c).symm⟩
  · rename_i c; exact ⟨slash, ((latin1_eq_iff (by decide)).mp c).symm⟩
  · rename_i c; exact ⟨backspace, ((latin1_eq_iff (by decide)).mp c).symm⟩
  · rename_i c; exact ⟨formFeed, ((latin1_eq_iff (by decide)).mp c).symm⟩
  · rename_i c; exact ⟨lineFeed, ((latin1_eq_iff (by decide)).mp c).symm⟩
  · rename_i c; exact ⟨carriageReturn, ((latin1_eq_iff (by decide)).mp c).symm⟩
  · rename_i c; exact ⟨tab, ((latin1_eq_iff (by decide)).mp c).symm⟩
  · cases h

end ShortEscape

inductive WrittenChar where
  | plain (c : Char) (allowed : 0x20 ≤ c.toNat ∧ c ≠ '"' ∧ c ≠ '\\')
  | short (escape : ShortEscape)
  | coded (code : HexCode) (single : isHighSurrogate code.value = false ∧ isLowSurrogate code.value = false)
  | paired (high low : HexCode)
      (surrogates : isHighSurrogate high.value = true ∧ isLowSurrogate low.value = true)

namespace WrittenChar

def isEscape : WrittenChar → Bool
  | plain _ _ => false
  | _ => true

def bytes : WrittenChar → List UInt8
  | plain c _ => String.utf8EncodeChar c
  | short escape => [0x5C, escape.letter]
  | coded code _ => 0x5C :: 0x75 :: code.bytes
  | paired high low _ => 0x5C :: 0x75 :: (high.bytes ++ 0x5C :: 0x75 :: low.bytes)

def char : WrittenChar → Char
  | plain c _ => c
  | short escape => escape.meaning
  | coded code _ => Char.ofNat code.value
  | paired high low _ => Char.ofNat (0x10000 + (high.value - 0xD800) * 0x400 + (low.value - 0xDC00))

end WrittenChar

abbrev WrittenString := List WrittenChar

namespace WrittenString

def bytes (string : WrittenString) : List UInt8 := string.flatMap WrittenChar.bytes

def text (string : WrittenString) : String := String.ofList (string.map WrittenChar.char)

end WrittenString

def IsRaw (b : UInt8) : Prop := b ≠ 0x22 ∧ b ≠ 0x5C ∧ ¬ b < 0x20

theorem isRaw_iff {b : UInt8} : IsRaw b ↔ b.toNat ≠ 0x22 ∧ b.toNat ≠ 0x5C ∧ 0x20 ≤ b.toNat := by
  simp only [IsRaw, ne_eq, ← UInt8.toNat_inj, UInt8.lt_iff_toNat_lt, UInt8.reduceToNat, Nat.not_lt]

theorem isRaw_of_allowed {c : Char} (allowed : 0x20 ≤ c.toNat ∧ c ≠ '"' ∧ c ≠ '\\') {b : UInt8}
    (member : b ∈ String.utf8EncodeChar c) : IsRaw b := by
  have quote : c.toNat ≠ 0x22 := fun h => allowed.2.1 (Char.toNat_inj.mp h)
  have backslash : c.toNat ≠ 0x5C := fun h => allowed.2.2 (Char.toNat_inj.mp h)
  have least := allowed.1
  rw [isRaw_iff]
  rcases Text.mem_encodeChar member with ⟨_, same⟩ | ⟨_, large⟩ <;> omega

theorem allowed_of_isRaw {c : Char} {b : UInt8} (member : b ∈ String.utf8EncodeChar c) (raw : IsRaw b) :
    0x20 ≤ c.toNat ∧ c ≠ '"' ∧ c ≠ '\\' := by
  rw [isRaw_iff] at raw
  rcases Text.mem_encodeChar member with ⟨_, same⟩ | ⟨large, _⟩
  · refine ⟨by omega, ?_, ?_⟩
    · rintro rfl
      exact raw.1 same
    · rintro rfl
      exact raw.2.1 same
  · refine ⟨by omega, ?_, ?_⟩ <;> rintro rfl <;> exact absurd large (by decide)

end EpcisDigest.Json
