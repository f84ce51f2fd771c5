import EpcisDigest.Json.Number
import Mathlib.Logic.Basic

namespace EpcisDigest.Json

abbrev Digits := { bytes : List UInt8 // bytes ≠ [] ∧ ∀ b ∈ bytes, isDigit b = true }

structure WrittenExponent where
  isUpper : Bool
  isNegative : Option Bool
  digits : Digits

namespace WrittenExponent

def letter (exponent : WrittenExponent) : UInt8 := if exponent.isUpper then 0x45 else 0x65

def bytes (exponent : WrittenExponent) : List UInt8 :=
  match exponent.isNegative with
  | some true => exponent.letter :: 0x2D :: exponent.digits.val
  | some false => exponent.letter :: 0x2B :: exponent.digits.val
  | none => exponent.letter :: exponent.digits.val

def literalBytes (exponent : WrittenExponent) : List UInt8 :=
  match exponent.isNegative with
  | some true => 0x65 :: 0x2D :: exponent.digits.val
  | _ => 0x65 :: 0x2B :: exponent.digits.val

end WrittenExponent

structure WrittenNumber where
  isNegative : Bool
  whole : Digits
  leading : whole.val.head? = some 0x30 → whole.val.length = 1
  fraction : Option Digits
  exponent : Option WrittenExponent

def fractionBytes (fraction : Option Digits) : List UInt8 :=
  fraction.elim [] fun digits => 0x2E :: digits.val

namespace WrittenNumber

def signBytes (number : WrittenNumber) : List UInt8 := if number.isNegative then [0x2D] else []

def bytes (number : WrittenNumber) : List UInt8 :=
  number.signBytes ++ number.whole.val ++ fractionBytes number.fraction ++
    number.exponent.elim [] WrittenExponent.bytes

def literal (number : WrittenNumber) : String :=
  String.ofList ((number.signBytes ++ number.whole.val ++ fractionBytes number.fraction ++
    number.exponent.elim [] WrittenExponent.literalBytes).map Text.latin1)

end WrittenNumber

def EndsNumber (rest : List UInt8) : Prop :=
  ∀ b ∈ rest.head?, isDigit b = false ∧ b ≠ 0x2E ∧ b ≠ 0x65 ∧ b ≠ 0x45

theorem takeWhile_append_of_head {α : Type} {p : α → Bool} {front rest : List α}
    (all : ∀ a ∈ front, p a = true) (stop : ∀ a ∈ rest.head?, p a = false) :
    (front ++ rest).takeWhile p = front ∧ (front ++ rest).dropWhile p = rest := by
  rw [List.takeWhile_append_of_pos all, List.dropWhile_append_of_pos all]
  cases rest with
  | nil => simp
  | cons a rest =>
    have stops := stop a rfl
    simp [stops]

theorem digits?_written (digits : Digits) {rest : List UInt8}
    (stop : ∀ b ∈ rest.head?, isDigit b = false) :
    digits? (digits.val ++ rest) = some (digits.val, rest) := by
  obtain ⟨taken, dropped⟩ := takeWhile_append_of_head digits.property.2 stop
  simp only [digits?, taken, dropped, digits.property.1, ite_false]

theorem exists_digits_of_digits? {bytes digits rest : List UInt8} (h : digits? bytes = some (digits, rest)) :
    ∃ written : Digits, written.val = digits ∧ bytes = digits ++ rest := by
  unfold digits? at h
  dsimp only at h
  split at h
  · cases h
  · rename_i found
    injection h with h
    injection h with taken dropped
    refine ⟨⟨digits, taken ▸ found, ?_⟩, rfl, ?_⟩
    · intro b member
      exact List.all_eq_true.mp List.all_takeWhile b (taken ▸ member)
    · rw [← taken, ← dropped, List.takeWhile_append_dropWhile]

theorem whole?_written {whole : Digits} (leading : whole.val.head? = some 0x30 → whole.val.length = 1)
    {rest : List UInt8} (stop : ∀ b ∈ rest.head?, isDigit b = false) :
    whole? (whole.val ++ rest) = some (whole.val, rest) := by
  have kept : ¬ (whole.val.head? = some 0x30 ∧ whole.val.length ≠ 1) := fun h => h.2 (leading h.1)
  simp only [whole?, digits?_written whole stop, bind, Option.bind, kept, ite_false]

theorem exists_whole_of_whole? {bytes digits rest : List UInt8} (h : whole? bytes = some (digits, rest)) :
    ∃ written : Digits, written.val = digits ∧ bytes = digits ++ rest ∧
      (written.val.head? = some 0x30 → written.val.length = 1) := by
  unfold whole? at h
  cases found : digits? bytes with
  | none => simp [found] at h
  | some part =>
    obtain ⟨digits', rest'⟩ := part
    obtain ⟨written, rfl, split⟩ := exists_digits_of_digits? found
    simp only [found, bind, Option.bind] at h
    split at h
    · cases h
    · rename_i leading
      injection h with h
      injection h with same rest_eq
      subst same rest_eq
      exact ⟨written, rfl, split, fun zero => by_contra fun long => leading ⟨zero, long⟩⟩

theorem isDigit_point : isDigit 0x2E = false := by decide

theorem fraction?_written (fraction : Option Digits) {rest : List UInt8}
    (stop : ∀ b ∈ rest.head?, isDigit b = false ∧ b ≠ 0x2E) :
    fraction? (fractionBytes fraction ++ rest) = some (fractionBytes fraction, rest) := by
  cases fraction with
  | some digits =>
    have read := digits?_written digits fun b head => (stop b head).1
    simp only [fractionBytes, Option.elim_some, List.cons_append, fraction?, read, Option.map_some]
  | none =>
    simp only [fractionBytes, Option.elim_none, List.nil_append]
    cases rest with
    | nil => rfl
    | cons b rest =>
      have noPoint := (stop b rfl).2
      unfold fraction?
      split
      · rename_i head
        injection head with head
        exact absurd head noPoint
      · rfl

theorem exists_fraction_of_fraction? {bytes fraction rest : List UInt8}
    (h : fraction? bytes = some (fraction, rest)) :
    ∃ written : Option Digits, fractionBytes written = fraction ∧ bytes = fraction ++ rest := by
  unfold fraction? at h
  split at h
  · obtain ⟨found, read, same⟩ := Option.map_eq_some_iff.mp h
    obtain ⟨digits, rest'⟩ := found
    obtain ⟨written, rfl, rfl⟩ := exists_digits_of_digits? read
    injection same with part rest_eq
    subst part rest_eq
    exact ⟨some written, rfl, rfl⟩
  · injection h with h
    injection h with part rest_eq
    subst part rest_eq
    exact ⟨none, rfl, rfl⟩

theorem isDigit_head {digits : Digits} {b : UInt8} {bytes : List UInt8} (h : digits.val = b :: bytes) :
    isDigit b = true := digits.property.2 b (h ▸ List.mem_cons_self)

theorem exponent?_written (exponent : Option WrittenExponent) {rest : List UInt8} (stop : EndsNumber rest) :
    exponent? (exponent.elim [] WrittenExponent.bytes ++ rest) =
      some (exponent.elim [] WrittenExponent.literalBytes, rest) := by
  cases exponent with
  | none =>
    cases rest with
    | nil => rfl
    | cons b rest =>
      obtain ⟨_, _, small, large⟩ := stop b rfl
      simp only [Option.elim_none, List.nil_append, exponent?, small, large, or_self, ite_false]
  | some exponent =>
    obtain ⟨isUpper, sign, digits⟩ := exponent
    have read := digits?_written digits fun b head => (stop b head).1
    have isLetter : (if isUpper then (0x45 : UInt8) else 0x65) = 0x65 ∨
        (if isUpper then (0x45 : UInt8) else 0x65) = 0x45 := by
      cases isUpper
      · exact .inl rfl
      · exact .inr rfl
    rcases sign with _ | _ | _
    · obtain ⟨b, bytes, split⟩ := List.exists_cons_of_ne_nil digits.property.1
      simp only [Option.elim_some, WrittenExponent.bytes, WrittenExponent.letter, List.cons_append,
        exponent?, isLetter, ite_true]
      have digit := isDigit_head split
      rw [split, List.cons_append] at read ⊢
      split
      · rename_i head
        injection head with head
        exact absurd digit (head ▸ by decide)
      · rename_i head
        injection head with head
        exact absurd digit (head ▸ by decide)
      · simp only [exponent?.written, read, Option.map_some, WrittenExponent.literalBytes, split]
    · simp only [Option.elim_some, WrittenExponent.bytes, WrittenExponent.letter, List.cons_append,
        exponent?, isLetter, ite_true, exponent?.written, read, Option.map_some,
        WrittenExponent.literalBytes]
    · simp only [Option.elim_some, WrittenExponent.bytes, WrittenExponent.letter, List.cons_append,
        exponent?, isLetter, ite_true, exponent?.written, read, Option.map_some,
        WrittenExponent.literalBytes]

theorem exists_exponent_of_written? {sign : UInt8} {bytes exponent rest : List UInt8}
    (h : exponent?.written sign bytes = some (exponent, rest)) :
    ∃ digits : Digits, exponent = 0x65 :: sign :: digits.val ∧ bytes = digits.val ++ rest := by
  obtain ⟨found, read, same⟩ := Option.map_eq_some_iff.mp h
  obtain ⟨digits, rest'⟩ := found
  obtain ⟨written, rfl, rfl⟩ := exists_digits_of_digits? read
  injection same with part rest_eq
  subst part rest_eq
  exact ⟨written, rfl, rfl⟩

theorem exists_exponent_of_exponent? {bytes exponent rest : List UInt8}
    (h : exponent? bytes = some (exponent, rest)) :
    ∃ written : Option WrittenExponent, exponent = written.elim [] WrittenExponent.literalBytes ∧
      bytes = written.elim [] WrittenExponent.bytes ++ rest := by
  cases bytes with
  | nil =>
    injection h with h
    injection h with part rest_eq
    exact ⟨none, part.symm, rest_eq⟩
  | cons letter bytes =>
    simp only [exponent?] at h
    split at h
    · rename_i isLetter
      have letters : ∃ isUpper : Bool, letter = if isUpper then 0x45 else 0x65 := by
        rcases isLetter with small | large
        · exact ⟨false, small⟩
        · exact ⟨true, large⟩
      obtain ⟨isUpper, rfl⟩ := letters
      split at h
      · obtain ⟨digits, rfl, rfl⟩ := exists_exponent_of_written? h
        exact ⟨some ⟨isUpper, some false, digits⟩, rfl, rfl⟩
      · obtain ⟨digits, rfl, rfl⟩ := exists_exponent_of_written? h
        exact ⟨some ⟨isUpper, some true, digits⟩, rfl, rfl⟩
      · obtain ⟨digits, rfl, rfl⟩ := exists_exponent_of_written? h
        exact ⟨some ⟨isUpper, none, digits⟩, rfl, rfl⟩
    · injection h with h
      injection h with part rest_eq
      exact ⟨none, part.symm, rest_eq⟩

theorem head_elim_exponent (exponent : Option WrittenExponent) {rest : List UInt8} (stop : EndsNumber rest) :
    ∀ b ∈ (exponent.elim [] WrittenExponent.bytes ++ rest).head?, isDigit b = false ∧ b ≠ 0x2E := by
  cases exponent with
  | none => exact fun b head => ⟨(stop b head).1, (stop b head).2.1⟩
  | some exponent =>
    obtain ⟨isUpper, sign, digits⟩ := exponent
    intro b head
    have letter : b = if isUpper then 0x45 else 0x65 := by
      rcases sign with _ | _ | _ <;> exact (Option.some.inj head).symm
    subst letter
    cases isUpper <;> decide

theorem head_fractionBytes (fraction : Option Digits) {rest : List UInt8}
    (stop : ∀ b ∈ rest.head?, isDigit b = false ∧ b ≠ 0x2E) :
    ∀ b ∈ (fractionBytes fraction ++ rest).head?, isDigit b = false := by
  cases fraction with
  | none => exact fun b head => (stop b head).1
  | some digits =>
    intro b head
    rw [← Option.some.inj head]
    exact isDigit_point

theorem unsigned?_written (number : WrittenNumber) {rest : List UInt8} (stop : EndsNumber rest) :
    unsigned? (number.whole.val ++ fractionBytes number.fraction ++
        number.exponent.elim [] WrittenExponent.bytes ++ rest) =
      some (number.whole.val ++ fractionBytes number.fraction ++
        number.exponent.elim [] WrittenExponent.literalBytes, rest) := by
  have afterFraction := head_elim_exponent number.exponent stop
  have afterWhole := head_fractionBytes number.fraction afterFraction
  rw [List.append_assoc, List.append_assoc]
  simp only [unsigned?, bind, Option.bind, whole?_written number.leading afterWhole,
    fraction?_written number.fraction afterFraction, exponent?_written number.exponent stop, pure]

theorem number?_written (number : WrittenNumber) {rest : List UInt8} (stop : EndsNumber rest) :
    number? (number.bytes ++ rest) = some (number.literal, rest) := by
  have read := unsigned?_written number stop
  obtain ⟨b, digits, split⟩ := List.exists_cons_of_ne_nil number.whole.property.1
  have digit := isDigit_head split
  have signed : signed? (number.bytes ++ rest) = some (number.signBytes ++ (number.whole.val ++
      fractionBytes number.fraction ++ number.exponent.elim [] WrittenExponent.literalBytes), rest) := by
    unfold WrittenNumber.bytes WrittenNumber.signBytes
    cases number.isNegative with
    | true =>
      simp only [ite_true, List.cons_append, List.nil_append, signed?]
      simp only [List.append_assoc] at read
      simp only [List.append_assoc, read, Option.map_some]
    | false =>
      simp only [Bool.false_eq_true, ite_false, List.nil_append]
      rw [← read]
      unfold signed?
      split
      · rename_i head
        rw [split] at head
        injection head with head
        exact absurd digit (head ▸ by decide)
      · rfl
  simp only [number?, signed, Option.map_some, WrittenNumber.literal, List.append_assoc]

theorem exists_number_of_unsigned? {bytes text rest : List UInt8} (isNegative : Bool)
    (h : unsigned? bytes = some (text, rest)) :
    ∃ number : WrittenNumber, number.isNegative = isNegative ∧
      text = number.whole.val ++ fractionBytes number.fraction ++
        number.exponent.elim [] WrittenExponent.literalBytes ∧
      bytes = number.whole.val ++ fractionBytes number.fraction ++
        number.exponent.elim [] WrittenExponent.bytes ++ rest := by
  unfold unsigned? at h
  simp only [bind, Option.bind, pure] at h
  split at h
  · cases h
  · rename_i wholePart readWhole
    obtain ⟨wholeBytes, afterWhole⟩ := wholePart
    obtain ⟨whole, rfl, rfl, leading⟩ := exists_whole_of_whole? readWhole
    dsimp only at h
    split at h
    · cases h
    · rename_i fractionPart readFraction
      obtain ⟨fractionText, afterFraction⟩ := fractionPart
      obtain ⟨fraction, rfl, same⟩ := exists_fraction_of_fraction? readFraction
      dsimp only at h
      split at h
      · cases h
      · rename_i exponentPart readExponent
        obtain ⟨exponentText, afterExponent⟩ := exponentPart
        obtain ⟨exponent, part, same'⟩ := exists_exponent_of_exponent? readExponent
        injection h with h
        injection h with text_eq rest_eq
        dsimp only at text_eq rest_eq
        refine ⟨⟨isNegative, whole, leading, fraction, exponent⟩, rfl, ?_, ?_⟩
        · rw [← text_eq, part]
        · rw [same, same', rest_eq]
          simp only [List.append_assoc]

theorem exists_writtenNumber_of_number? {bytes rest : List UInt8} {literal : String}
    (h : number? bytes = some (literal, rest)) :
    ∃ number : WrittenNumber, bytes = number.bytes ++ rest ∧ number.literal = literal := by
  obtain ⟨found, read, same⟩ := Option.map_eq_some_iff.mp h
  obtain ⟨text, rest'⟩ := found
  injection same with literal_eq rest_eq
  dsimp only at rest_eq
  subst literal_eq rest_eq
  unfold signed? at read
  split at read
  · obtain ⟨inner, unsigned, same⟩ := Option.map_eq_some_iff.mp read
    obtain ⟨text', rest''⟩ := inner
    injection same with part rest_eq
    dsimp only at rest_eq
    subst part rest_eq
    obtain ⟨number, sign, rfl, rfl⟩ := exists_number_of_unsigned? true unsigned
    refine ⟨number, ?_, ?_⟩
    · simp only [WrittenNumber.bytes, WrittenNumber.signBytes, sign, ite_true, List.append_assoc,
        List.cons_append, List.nil_append]
    · simp only [WrittenNumber.literal, WrittenNumber.signBytes, sign, ite_true, List.append_assoc,
        List.cons_append, List.nil_append]
  · obtain ⟨number, sign, rfl, rfl⟩ := exists_number_of_unsigned? false read
    refine ⟨number, ?_, ?_⟩
    · simp only [WrittenNumber.bytes, WrittenNumber.signBytes, sign, Bool.false_eq_true, ite_false,
        List.nil_append]
    · simp only [WrittenNumber.literal, WrittenNumber.signBytes, sign, Bool.false_eq_true, ite_false,
        List.nil_append]

end EpcisDigest.Json
