import EpcisDigest.Proofs.Identifier.CheckDigit
import EpcisDigest.Time.Instant
import Mathlib.Algebra.Field.Rat
import Mathlib.Data.List.Basic
import Mathlib.Data.List.Induction

namespace EpcisDigest.Time

def IsNumeral (cs : List Char) : Prop :=
  cs ≠ [] ∧ ∀ c ∈ cs, c.isDigit = true

instance (cs : List Char) : Decidable (IsNumeral cs) :=
  decidable_of_iff (cs ≠ [] ∧ cs.all Char.isDigit = true) (by simp [IsNumeral])

theorem IsNumeral.head {c : Char} {cs : List Char} (numeral : IsNumeral (c :: cs)) : c.isDigit = true :=
  numeral.2 c List.mem_cons_self

section NumberOf

variable {digits digits' : List Char}

theorem numberOf_eq_ofDigitChars (digits : List Char) : numberOf digits = Nat.ofDigitChars 10 digits 0 := by
  unfold numberOf
  rw [Nat.ofDigitChars_eq_foldl]
  congr 1
  funext n c
  rw [Nat.mul_comm]

theorem numberOf_append (front back : List Char) :
    numberOf (front ++ back) = numberOf front * 10 ^ back.length + numberOf back := by
  simp only [numberOf_eq_ofDigitChars]
  rw [Nat.ofDigitChars_append, Nat.ofDigitChars_eq_ofDigitChars_zero, Nat.mul_comm]

theorem numberOf_concat (front : List Char) (c : Char) :
    numberOf (front ++ [c]) = numberOf front * 10 + digitValue c := by
  rw [numberOf_append]
  simp [numberOf, digitValue]

theorem numberOf_zeros (count : Nat) : numberOf (List.replicate count '0') = 0 := by
  rw [numberOf_eq_ofDigitChars, Nat.ofDigitChars_replicate_zero, Nat.mul_zero]

theorem numberOf_lt (digits : List Char) (numeric : ∀ c ∈ digits, c.isDigit = true) :
    numberOf digits < 10 ^ digits.length := by
  induction digits using List.reverseRecOn with
  | nil => simp [numberOf]
  | append_singleton front c ih =>
    have small := digitValue_le (numeric c (by simp))
    have below := ih fun other member => numeric other (by simp [member])
    rw [numberOf_concat, List.length_append, List.length_singleton, Nat.pow_succ]
    omega

theorem eq_of_numberOf (numeric : ∀ c ∈ digits, c.isDigit = true) (numeric' : ∀ c ∈ digits', c.isDigit = true)
    (length : digits.length = digits'.length) (same : numberOf digits = numberOf digits') : digits = digits' := by
  induction digits using List.reverseRecOn generalizing digits' with
  | nil => exact (List.length_eq_zero_iff.mp length.symm).symm
  | append_singleton front c ih =>
    rcases List.eq_nil_or_concat' digits' with rfl | ⟨front', c', rfl⟩
    · simp at length
    · have digit := numeric c (by simp)
      have digit' := numeric' c' (by simp)
      have small := digitValue_le digit
      have small' := digitValue_le digit'
      rw [numberOf_concat, numberOf_concat] at same
      have fronts : front = front' := by
        apply ih (fun other member => numeric other (by simp [member]))
          (fun other member => numeric' other (by simp [member]))
        · simpa using length
        · omega
      have lasts : digitValue c = digitValue c' := by omega
      rw [fronts, ← ofNat_digitValue digit, ← ofNat_digitValue digit', lasts]

theorem numberOf_toDigits (n : Nat) : numberOf (Nat.toDigits 10 n) = n := by
  rw [numberOf_eq_ofDigitChars, Nat.ofDigitChars_ten_toDigits]

end NumberOf

section Fraction

def fractionOf (digits : List Char) : ℚ :=
  numberOf digits / 10 ^ digits.length

theorem fractionOf_eq_iff (digits digits' : List Char) : fractionOf digits = fractionOf digits' ↔
    numberOf digits * 10 ^ digits'.length = numberOf digits' * 10 ^ digits.length := by
  unfold fractionOf
  rw [div_eq_div_iff (by simp) (by simp)]
  exact_mod_cast Iff.rfl

theorem fractionOf_append_zeros (digits : List Char) (count : Nat) :
    fractionOf (digits ++ List.replicate count '0') = fractionOf digits := by
  rw [fractionOf_eq_iff, numberOf_append, numberOf_zeros]
  simp [Nat.pow_add, Nat.mul_assoc, Nat.mul_comm (10 ^ count)]

end Fraction

section Padded

variable {width n : Nat}

theorem isDigit_of_mem_padded {c : Char} (member : c ∈ padded width n) : c.isDigit = true := by
  unfold padded at member
  rcases List.mem_append.mp member with zero | digit
  · rw [List.eq_of_mem_replicate zero]
    decide
  · exact Nat.isDigit_of_mem_toDigits (by decide) (by decide) digit

theorem numberOf_padded (width n : Nat) : numberOf (padded width n) = n := by
  unfold padded
  rw [numberOf_append, numberOf_zeros, numberOf_toDigits]
  omega

theorem length_padded (positive : 0 < width) (small : n < 10 ^ width) : (padded width n).length = width := by
  have short : (Nat.toDigits 10 n).length ≤ width := (Nat.length_toDigits_le_iff (by decide) positive).mpr small
  simp only [padded, List.length_append, List.length_replicate]
  omega

end Padded

end EpcisDigest.Time
