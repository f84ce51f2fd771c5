import EpcisDigest.Text.Utf8
import Mathlib.Logic.Basic

namespace EpcisDigest.Text

theorem toByteArray_eq (bytes : List UInt8) : (⟨bytes.toArray⟩ : ByteArray) = bytes.toByteArray := by
  apply ByteArray.ext
  rw [List.data_toByteArray]

theorem ofBytes?_eq_some_iff {bytes : List UInt8} {s : String} :
    ofBytes? bytes = some s ↔ bytesOf s = bytes := by
  have encoded : s.toByteArray = (bytesOf s).toByteArray := by
    conv => lhs; rw [← String.ofList_toList (s := s)]
    rfl
  unfold ofBytes? String.fromUTF8?
  rw [toByteArray_eq]
  constructor
  · intro h
    split at h
    · injection h with h
      rw [← h] at encoded
      exact h ▸ (List.toByteArray_inj.mp encoded).symm
    · cases h
  · intro h
    rw [h] at encoded
    have valid : bytes.toByteArray.IsValidUTF8 := encoded ▸ s.isValidUTF8
    rw [dif_pos valid]
    exact congrArg some (String.toByteArray_inj.mp encoded.symm)

theorem bytesOf_ofList (cs : List Char) : bytesOf (String.ofList cs) = cs.flatMap String.utf8EncodeChar := by
  rw [bytesOf, String.toList_ofList]

/-- No character's bytes begin with those of another one. -/
theorem encodeChar_append_inj {c d : Char} {xs ys : List UInt8}
    (h : String.utf8EncodeChar c ++ xs = String.utf8EncodeChar d ++ ys) : c = d ∧ xs = ys := by
  have arrays := congrArg List.toByteArray h
  rw [List.toByteArray_append, List.toByteArray_append] at arrays
  have decoded := congrArg (fun b => ByteArray.utf8DecodeChar? b 0) arrays
  simp only [ByteArray.utf8DecodeChar?_utf8EncodeChar_append, Option.some.injEq] at decoded
  subst decoded
  exact ⟨rfl, List.append_cancel_left h⟩

/-- The first byte of a character is told apart from those that follow it. -/
theorem encodeChar_eq_cons (c : Char) : ∃ first more, String.utf8EncodeChar c = first :: more ∧
    first.IsUTF8FirstByte ∧ ∀ b ∈ more, ¬ b.IsUTF8FirstByte := by
  cases h : String.utf8EncodeChar c with
  | nil => exact absurd h String.utf8EncodeChar_ne_nil
  | cons first more =>
    have bound : 0 < (String.utf8EncodeChar c).length := by rw [h]; exact Nat.succ_pos _
    refine ⟨first, more, rfl, ?_, ?_⟩
    · have leads := UInt8.isUTF8FirstByte_getElem_zero_utf8EncodeChar (c := c)
      simpa only [h, List.getElem_cons_zero] using leads
    · intro b member
      obtain ⟨i, hi, at_i⟩ := List.mem_iff_getElem.mp member
      have inside : i + 1 < (String.utf8EncodeChar c).length := by
        rw [h]; exact Nat.succ_lt_succ hi
      have follows := (@UInt8.isUTF8FirstByte_getElem_utf8EncodeChar c (i + 1) inside).not.mpr
        (Nat.succ_ne_zero i)
      simpa only [h, List.getElem_cons_succ, at_i] using follows

theorem toNat_lt (c : Char) : c.val.toNat < 0x110000 := by
  have valid := c.valid
  simp only [UInt32.isValidChar, Nat.isValidChar] at valid
  omega

/-- An ASCII character is its own byte, and no other character has an ASCII byte. -/
theorem mem_encodeChar {c : Char} {b : UInt8} (member : b ∈ String.utf8EncodeChar c) :
    c.toNat < 0x80 ∧ b.toNat = c.toNat ∨ 0x80 ≤ c.toNat ∧ 0x80 ≤ b.toNat := by
  have code : c.toNat = c.val.toNat := rfl
  have bound := toNat_lt c
  rw [code]
  unfold String.utf8EncodeChar at member
  dsimp only at member
  split at member
  · simp only [List.mem_singleton] at member
    subst member
    left
    rw [UInt8.toNat_ofNat']
    omega
  · right
    split at member
    · simp only [List.mem_cons, List.not_mem_nil, or_false] at member
      rcases member with rfl | rfl <;> rw [UInt8.toNat_ofNat'] <;> omega
    · split at member
      · simp only [List.mem_cons, List.not_mem_nil, or_false] at member
        rcases member with rfl | rfl | rfl <;> rw [UInt8.toNat_ofNat'] <;> omega
      · simp only [List.mem_cons, List.not_mem_nil, or_false] at member
        rcases member with rfl | rfl | rfl | rfl <;> rw [UInt8.toNat_ofNat'] <;> omega

theorem exists_digits {code : Nat} (bound : code < 0x110000) :
    ∃ a b c d, code = 262144 * a + 4096 * b + 64 * c + d ∧ a < 8 ∧ b < 64 ∧ c < 64 ∧ d < 64 ∧
      code / 262144 = a ∧ code / 4096 = 64 * a + b ∧ code / 64 = 4096 * a + 64 * b + c ∧ code % 64 = d :=
  ⟨code / 262144, code / 4096 % 64, code / 64 % 64, code % 64, by omega, by omega, by omega, by omega, by omega,
    by omega, by omega, by omega, by omega⟩

theorem encodeChar_lt {c d : Char} (less : c < d) (xs ys : List UInt8) :
    String.utf8EncodeChar c ++ xs < String.utf8EncodeChar d ++ ys := by
  have below : c.val.toNat < d.val.toNat := less
  have bound := toNat_lt d
  obtain ⟨_, _, _, _, low, _, _, _, _, quarter, third, half, last⟩ := exists_digits (toNat_lt c)
  obtain ⟨_, _, _, _, high, _, _, _, _, quarter', third', half', last'⟩ := exists_digits (toNat_lt d)
  unfold String.utf8EncodeChar
  dsimp only
  rw [quarter, third, half, last, quarter', third', half', last']
  generalize c.val.toNat = code, d.val.toNat = code' at *
  clear quarter third half last quarter' third' half' last' less
  -- The cases are the numbers of bytes of the two characters.
  repeat' split
  all_goals
    simp only [List.cons_append, List.nil_append, List.cons_lt_cons_iff, UInt8.lt_iff_toNat_lt, ← UInt8.toNat_inj,
      UInt8.toNat_ofNat']
    omega

theorem bytesOf_lt {x y : String} (less : x < y) : bytesOf x < bytesOf y := by
  have characters : ∀ cs ds : List Char, cs < ds →
      cs.flatMap String.utf8EncodeChar < ds.flatMap String.utf8EncodeChar := by
    intro cs
    induction cs with
    | nil =>
      intro ds less
      cases ds with
      | nil => exact absurd less (List.not_lt_nil _)
      | cons d ds =>
        obtain ⟨first, more, encoded, -⟩ := encodeChar_eq_cons d
        rw [List.flatMap_cons, encoded]
        exact List.nil_lt_cons _ _
    | cons c cs ih =>
      intro ds less
      cases ds with
      | nil => exact absurd less (List.not_lt_nil _)
      | cons d ds =>
        rcases List.cons_lt_cons_iff.mp less with before | ⟨rfl, behind⟩
        · exact encodeChar_lt before _ _
        · exact List.append_left_lt (ih ds behind)
  exact characters x.toList y.toList less

/-- Texts are compared as their bytes are. -/
theorem compare_of_bytesOf_lt {x y : String} (less : bytesOf x < bytesOf y) : compare x y = .lt := by
  apply compareOfLessAndEq_eq_lt.mpr
  apply Decidable.byContradiction
  intro notLess
  by_cases same : x = y
  · exact absurd (same ▸ less) (List.lt_irrefl _)
  · exact List.lt_asymm less (bytesOf_lt (Std.lt_of_le_of_ne (Std.not_lt.mp notLess) (Ne.symm same)))

end EpcisDigest.Text
