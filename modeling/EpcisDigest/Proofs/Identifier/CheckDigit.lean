import EpcisDigest.Identifier
import Mathlib.Algebra.GroupWithZero.Nat

namespace EpcisDigest

def IsDigitString (s : String) : Prop :=
  s ≠ "" ∧ ∀ c ∈ s.toList, c.isDigit = true

def digitValue (c : Char) : Nat := c.toNat - '0'.toNat

/-- The digits are weighted 1, 3, 1, 3 and so on from the right. -/
def keySum (digits : List Char) : Nat :=
  (digits.reverse.zipIdx.map fun (c, place) => (if place % 2 = 0 then 1 else 3) * digitValue c).sum

def ChecksOut (digits : List Char) : Prop :=
  keySum digits % 10 = 0

theorem isDigits_iff {s : String} : isDigits s = true ↔ IsDigitString s := by
  rw [isDigits, IsDigitString, Bool.and_eq_true, bne_iff_ne, List.all_eq_true]

section Digit

variable {c : Char}

theorem bounds_of_isDigit (digit : c.isDigit = true) : 48 ≤ c.toNat ∧ c.toNat ≤ 57 := by
  simp only [Char.isDigit, Bool.and_eq_true, decide_eq_true_eq, ge_iff_le, UInt32.le_iff_toNat_le] at digit
  exact digit

theorem digitValue_le (digit : c.isDigit = true) : digitValue c ≤ 9 := by
  have bounds := bounds_of_isDigit digit
  have zero : '0'.toNat = 48 := rfl
  rw [digitValue]
  omega

theorem ofNat_digitValue (digit : c.isDigit = true) : Char.ofNat ('0'.toNat + digitValue c) = c := by
  have bounds := bounds_of_isDigit digit
  have zero : '0'.toNat = 48 := rfl
  rw [digitValue, Nat.add_sub_cancel' (by omega), Char.ofNat_toNat]

theorem isDigit_ofNat {n : Nat} (small : n < 10) : (Char.ofNat ('0'.toNat + n)).isDigit = true := by
  have all : ∀ n < 10, (Char.ofNat ('0'.toNat + n)).isDigit = true := by decide
  exact all n small

theorem digitValue_ofNat {n : Nat} (small : n < 10) : digitValue (Char.ofNat ('0'.toNat + n)) = n := by
  have all : ∀ n < 10, digitValue (Char.ofNat ('0'.toNat + n)) = n := by decide
  exact all n small

end Digit

theorem sum_zipIdx (cs : List Char) (place : Nat) :
    ((cs.zipIdx place).map fun (c, place) => (if place % 2 = 0 then 1 else 3) * digitValue c).sum =
      weightedSum.go (if place % 2 = 0 then 1 else 3) cs := by
  induction cs generalizing place with
  | nil => rfl
  | cons c cs ih =>
    have next : 4 - (if place % 2 = 0 then 1 else 3) = if (place + 1) % 2 = 0 then 1 else 3 := by
      split <;> split <;> omega
    rw [List.zipIdx_cons, List.map_cons, List.sum_cons, ih, weightedSum.go, next]
    rfl

theorem keySum_append (digits : List Char) (c : Char) : keySum (digits ++ [c]) = digitValue c + weightedSum digits := by
  have behind := sum_zipIdx digits.reverse 1
  rw [keySum, List.reverse_append, List.reverse_singleton, List.singleton_append, List.zipIdx_cons, List.map_cons,
    List.sum_cons, behind, weightedSum]
  simp

/-- There is one digit that brings the sum to a multiple of ten. -/
theorem checksOut_append_iff (digits : List Char) (c : Char) : c.isDigit = true ∧ ChecksOut (digits ++ [c]) ↔
    c = Char.ofNat ('0'.toNat + (10 - weightedSum digits % 10) % 10) := by
  rw [ChecksOut, keySum_append]
  constructor
  · intro ⟨digit, checks⟩
    have small := digitValue_le digit
    have value : (10 - weightedSum digits % 10) % 10 = digitValue c := by omega
    rw [value, ofNat_digitValue digit]
  · intro same
    have small : (10 - weightedSum digits % 10) % 10 < 10 := Nat.mod_lt _ (by decide)
    rw [same, digitValue_ofNat small]
    exact ⟨isDigit_ofNat small, by omega⟩

theorem exists_checkDigit {digits : String} (numeric : IsDigitString digits) :
    ∃ check, checkDigit? digits = some check ∧
      ∀ c, c.isDigit = true ∧ ChecksOut (digits.toList ++ [c]) ↔ c = check := by
  refine ⟨_, ?_, checksOut_append_iff digits.toList⟩
  rw [checkDigit?, if_pos (isDigits_iff.mpr numeric)]

theorem checkDigit?_eq_none {digits : String} (other : ¬ IsDigitString digits) : checkDigit? digits = none := by
  rw [checkDigit?, if_neg (isDigits_iff.not.mpr other)]

theorem go_le (digits : List Char) (numeric : ∀ c ∈ digits, c.isDigit = true) {weight : Nat} (positive : 1 ≤ weight)
    (small : weight ≤ 3) : weightedSum.go weight digits ≤ 27 * digits.length := by
  induction digits generalizing weight with
  | nil => exact Nat.le_refl 0
  | cons c digits ih =>
    have others : weightedSum.go (4 - weight) digits ≤ 27 * digits.length :=
      ih (fun other member => numeric other (List.mem_cons_of_mem _ member)) (by omega) (by omega)
    have own : weight * digitValue c ≤ 3 * 9 := Nat.mul_le_mul small (digitValue_le (numeric c List.mem_cons_self))
    rw [weightedSum.go, List.length_cons, ← digitValue]
    omega

theorem weightedSum_lt {digits : List Char} (numeric : ∀ c ∈ digits, c.isDigit = true)
    (short : digits.length < 150000000) : weightedSum digits < 2 ^ 32 := by
  have bound : weightedSum.go 3 digits.reverse ≤ 27 * digits.reverse.length :=
    go_le digits.reverse (fun c member => numeric c (List.mem_reverse.mp member)) (by decide) (by decide)
  rw [List.length_reverse] at bound
  rw [weightedSum]
  omega

end EpcisDigest
