import EpcisDigest.Json.Input
import EpcisDigest.Proofs.Json.Grammar

namespace EpcisDigest.Json

theorem tooLong_or_next {limit length : Nat} {measured : List UInt8 → Extent} (next : Measuring)
    (tested : ∀ bytes, measured bytes =
      if limit < length + 1 then .tooLong (length + 1) else extentFrom limit next (length + 1) bytes) :
    (∀ bytes, measured bytes = .tooLong (length + 1)) ∨
    ∃ next, ∀ bytes, measured bytes = extentFrom limit next (length + 1) bytes := by
  by_cases beyond : limit < length + 1
  · exact .inl fun bytes => (tested bytes).trans (if_pos beyond)
  · exact .inr ⟨next, fun bytes => (tested bytes).trans (if_neg beyond)⟩

/-- What a byte does to the measuring, whatever stands behind it: it shows where the value ends, or is one too many,
    or leads on. -/
theorem extentFrom_cons_cases (limit : Nat) (measuring : Measuring) (length : Nat) (b : UInt8) :
    (∃ found, found ≤ length + 1 ∧ ∀ bytes, extentFrom limit measuring length (b :: bytes) = .complete found) ∨
    (∀ bytes, extentFrom limit measuring length (b :: bytes) = .tooLong (length + 1)) ∨
    ∃ next, ∀ bytes, extentFrom limit measuring length (b :: bytes) = extentFrom limit next (length + 1) bytes := by
  cases measuring with
  | literal =>
    by_cases ends : endsLiteral b = true
    · exact .inl ⟨length, Nat.le_succ _, fun bytes => by rw [extentFrom, if_pos ends]⟩
    · exact .inr (tooLong_or_next _ fun bytes => by rw [extentFrom, if_neg ends])
  | string depth =>
    by_cases backslash : b = 0x5C
    · exact .inr (.inr ⟨.escape depth, fun bytes => by rw [extentFrom, if_pos backslash]⟩)
    by_cases ends : b = 0x22 ∧ depth = 0
    · exact .inl ⟨length + 1, Nat.le_refl _, fun bytes => by rw [extentFrom, if_neg backslash, if_pos ends]⟩
    · exact .inr (tooLong_or_next _ fun bytes => by rw [extentFrom, if_neg backslash, if_neg ends])
  | escape depth => exact .inr (tooLong_or_next _ fun bytes => by rw [extentFrom])
  | container depth =>
    by_cases quote : b = 0x22
    · exact .inr (.inr ⟨.string depth, fun bytes => by rw [extentFrom, if_pos quote]⟩)
    by_cases ends : (b = 0x7D ∨ b = 0x5D) ∧ depth ≤ 1
    · exact .inl ⟨length + 1, Nat.le_refl _, fun bytes => by rw [extentFrom, if_neg quote, if_pos ends]⟩
    · exact .inr (tooLong_or_next _ fun bytes => by rw [extentFrom, if_neg quote, if_neg ends])

theorem extent_cons_cases (limit : Nat) (b : UInt8) :
    (∀ bytes, extent limit (b :: bytes) = extentFrom limit (.string 0) 1 bytes) ∨
    ∃ measuring, ∀ bytes, extent limit (b :: bytes) = extentFrom limit measuring 0 (b :: bytes) := by
  by_cases quote : b = 0x22
  · exact .inl fun bytes => by rw [extent, if_pos quote]
  by_cases opens : b = 0x7B ∨ b = 0x5B
  · exact .inr ⟨.container 0, fun bytes => by rw [extent, if_neg quote, if_pos opens]⟩
  · exact .inr ⟨.literal, fun bytes => by rw [extent, if_neg quote, if_neg opens]⟩

def Passes (limit : Nat) (measuring : Measuring) (bytes : List UInt8) : Prop :=
  ∀ length rest, length + bytes.length ≤ limit →
    extentFrom limit measuring length (bytes ++ rest) =
      extentFrom limit measuring (length + bytes.length) rest

section Passing

variable {limit depth : Nat} {measuring : Measuring}

theorem passes_nil : Passes limit measuring [] := fun _ _ _ => rfl

theorem Passes.append {front back : List UInt8} (first : Passes limit measuring front)
    (second : Passes limit measuring back) : Passes limit measuring (front ++ back) := by
  intro length rest fits
  rw [List.length_append] at fits ⊢
  rw [List.append_assoc, first length (back ++ rest) (by omega),
    second (length + front.length) rest (by omega), Nat.add_assoc]

theorem Passes.cons {b : UInt8} {bytes : List UInt8} (first : Passes limit measuring [b])
    (others : Passes limit measuring bytes) : Passes limit measuring (b :: bytes) :=
  Passes.append first others

theorem passes_of_forall {bytes : List UInt8} (each : ∀ b ∈ bytes, Passes limit measuring [b]) :
    Passes limit measuring bytes := by
  induction bytes with
  | nil => exact passes_nil
  | cons b bytes ih =>
    apply Passes.cons (each b List.mem_cons_self)
    exact ih fun c member => each c (List.mem_cons_of_mem _ member)

theorem passes_raw {b : UInt8} (quote : b ≠ 0x22) (backslash : b ≠ 0x5C) :
    Passes limit (.string depth) [b] := by
  intro length rest fits
  have below : ¬ limit < length + 1 := Nat.not_lt.mpr fits
  simp only [List.singleton_append, extentFrom, backslash, quote, false_and, below, ite_false,
    List.length_singleton]

theorem passes_escape (b : UInt8) : Passes limit (.string depth) [0x5C, b] := by
  intro length rest fits
  have below : ¬ limit < length + 1 + 1 := Nat.not_lt.mpr fits
  simp only [List.cons_append, List.nil_append, extentFrom, ite_true, below, ite_false]
  rfl

theorem HexDigit.byte_isRaw (digit : HexDigit) : digit.byte ≠ 0x22 ∧ digit.byte ≠ 0x5C := by
  obtain ⟨value, isUpper⟩ := digit
  revert value isUpper
  decide

theorem passes_code (code : HexCode) : Passes limit (.string depth) code.bytes := by
  apply passes_of_forall
  intro b member
  simp only [HexCode.bytes, List.mem_cons, List.not_mem_nil, or_false] at member
  rcases member with rfl | rfl | rfl | rfl <;>
    exact passes_raw (HexDigit.byte_isRaw _).1 (HexDigit.byte_isRaw _).2

theorem passes_quotable {text : List UInt8} (quotable : Quotable text) : Passes limit (.string depth) text := by
  induction quotable with
  | nil => exact passes_nil
  | plain c allowed others ih =>
    refine Passes.append (passes_of_forall fun b member => ?_) ih
    have raw := isRaw_of_allowed allowed member
    exact passes_raw raw.1 raw.2.1
  | short escape others ih => exact Passes.append (passes_escape _) ih
  | code code others ih => exact Passes.append (passes_escape 0x75) (Passes.append (passes_code code) ih)

def IsFlat (b : UInt8) : Prop := b ≠ 0x22 ∧ b ≠ 0x7B ∧ b ≠ 0x5B ∧ b ≠ 0x7D ∧ b ≠ 0x5D

instance (b : UInt8) : Decidable (IsFlat b) := inferInstanceAs (Decidable (_ ∧ _))

theorem passes_flat {b : UInt8} (flat : IsFlat b) : Passes limit (.container depth) [b] := by
  obtain ⟨quote, openBrace, openBracket, closeBrace, closeBracket⟩ := flat
  intro length rest fits
  have below : ¬ limit < length + 1 := Nat.not_lt.mpr fits
  simp only [List.singleton_append, extentFrom, quote, openBrace, openBracket, closeBrace, closeBracket,
    or_self, false_and, below, ite_false, List.length_singleton]

theorem isFlat_of_isSpace {b : UInt8} (space : isSpace b = true) : IsFlat b := by
  simp only [isSpace, Bool.or_eq_true, beq_iff_eq] at space
  rcases space with ((rfl | rfl) | rfl) | rfl <;> decide

theorem passes_blanks (blank : Blanks) : Passes limit (.container depth) blank.val :=
  passes_of_forall fun b member => passes_flat (isFlat_of_isSpace (blank.property b member))

theorem passes_quoted {text : List UInt8} (quotable : Quotable text) :
    Passes limit (.container (depth + 1)) (inQuotes text) := by
  intro length rest fits
  simp only [inQuotes, List.length_cons, List.length_append, List.length_nil] at fits ⊢
  have inside := @passes_quotable limit (depth + 1) text quotable (length + 1) (0x22 :: rest) (by omega)
  have below : ¬ limit < length + 1 + text.length + 1 := by omega
  have notBackslash : ¬ (0x22 : UInt8) = 0x5C := by decide
  simp only [List.cons_append, List.append_assoc, List.nil_append]
  rw [extentFrom]
  simp only [ite_true]
  rw [inside, extentFrom]
  simp only [notBackslash, Nat.add_one_ne_zero, and_false, below, ite_false, ite_true]
  congr 1
  omega

theorem Passes.bracketed {opening closing : UInt8} {bytes : List UInt8}
    (opens : opening = 0x7B ∨ opening = 0x5B) (closes : closing = 0x7D ∨ closing = 0x5D)
    (inside : Passes limit (.container (depth + 2)) bytes) :
    Passes limit (.container (depth + 1)) (opening :: (bytes ++ [closing])) := by
  intro length rest fits
  simp only [List.length_cons, List.length_append, List.length_nil] at fits ⊢
  have enter : ¬ limit < length + 1 := by omega
  have leave : ¬ limit < length + 1 + bytes.length + 1 := by omega
  have notDeep : ¬ depth + 2 ≤ 1 := by omega
  have inside := inside (length + 1) (closing :: rest) (by omega)
  have entered : extentFrom limit (.container (depth + 1)) length (opening :: (bytes ++ closing :: rest)) =
      extentFrom limit (.container (depth + 2)) (length + 1) (bytes ++ closing :: rest) := by
    rcases opens with rfl | rfl <;> simp [extentFrom, enter]
  have left : extentFrom limit (.container (depth + 2)) (length + 1 + bytes.length) (closing :: rest) =
      extentFrom limit (.container (depth + 1)) (length + 1 + bytes.length + 1) rest := by
    rcases closes with rfl | rfl <;> simp [extentFrom, leave]
  simp only [List.cons_append, List.append_assoc, List.nil_append]
  rw [entered, inside, left]
  congr 1
  omega

def IsBare (b : UInt8) : Prop := IsFlat b ∧ endsLiteral b = false

instance (b : UInt8) : Decidable (IsBare b) := inferInstanceAs (Decidable (_ ∧ _))

theorem isBare_of_isDigit {b : UInt8} (digit : isDigit b = true) : IsBare b := by
  have bounds : 0x30 ≤ b.toNat ∧ b.toNat ≤ 0x39 := by
    simpa [isDigit, UInt8.le_iff_toNat_le] using digit
  simp only [IsBare, IsFlat, endsLiteral, isSpace, Bool.or_eq_false_iff, beq_eq_false_iff_ne, ne_eq,
    ← UInt8.toNat_inj, UInt8.reduceToNat]
  omega

theorem WrittenNumber.isBare (number : WrittenNumber) : ∀ b ∈ number.bytes, IsBare b := by
  have digits : ∀ (digits : Digits), ∀ b ∈ digits.val, IsBare b := fun digits b member =>
    isBare_of_isDigit (digits.property.2 b member)
  intro b member
  simp only [WrittenNumber.bytes, List.mem_append] at member
  rcases member with ((sign | whole) | fraction) | exponent
  · unfold WrittenNumber.signBytes at sign
    split at sign
    · rw [List.mem_singleton.mp sign]
      decide
    · cases sign
  · exact digits _ b whole
  · cases part : number.fraction with
    | none => rw [part] at fraction; cases fraction
    | some found =>
      rw [part] at fraction
      rcases List.mem_cons.mp fraction with rfl | digit
      · decide
      · exact digits _ b digit
  · cases part : number.exponent with
    | none => rw [part] at exponent; cases exponent
    | some found =>
      rw [part] at exponent
      have letter : IsBare found.letter := by
        unfold WrittenExponent.letter
        split <;> decide
      simp only [Option.elim, WrittenExponent.bytes] at exponent
      split at exponent <;> simp only [List.mem_cons] at exponent
      · rcases exponent with rfl | rfl | digit
        · exact letter
        · decide
        · exact digits _ b digit
      · rcases exponent with rfl | rfl | digit
        · exact letter
        · decide
        · exact digits _ b digit
      · rcases exponent with rfl | digit
        · exact letter
        · exact digits _ b digit

theorem passes_separator (first : Bool) : Passes limit (.container depth) (separator first) := by
  cases first with
  | true => exact passes_nil
  | false => exact passes_flat (by decide)

/-- Inside a container the whole of a part passes. -/
theorem passes_wellformed {part : Part} {bytes : List UInt8} (wellformed : Wellformed part bytes) :
    Passes limit (.container (depth + 1)) bytes := by
  induction wellformed generalizing depth with
  | null => exact passes_of_forall fun b member => passes_flat (by revert b; decide +kernel)
  | bool value => cases value <;> exact passes_of_forall fun b member => passes_flat (by revert b; decide +kernel)
  | number number => exact passes_of_forall fun b member => passes_flat (number.isBare b member).1
  | string body => exact passes_quoted body
  | array blank inside ih => exact ((passes_blanks blank).append ih).bracketed (.inr rfl) (.inr rfl)
  | object blank inside ih => exact ((passes_blanks blank).append ih).bracketed (.inl rfl) (.inl rfl)
  | noItems => exact passes_nil
  | item before after one others ihOne ihOthers =>
    exact (passes_separator _).append ((passes_blanks before).append (ihOne.append
      ((passes_blanks after).append ihOthers)))
  | noMembers => exact passes_nil
  | member outer inner before after named one others ihOne ihOthers =>
    exact (passes_separator _).append ((passes_blanks outer).append ((passes_quoted named).append
      ((passes_blanks inner).append (Passes.cons (passes_flat (by decide)) ((passes_blanks before).append
        (ihOne.append ((passes_blanks after).append ihOthers)))))))

end Passing

theorem extent_bare {limit : Nat} {b : UInt8} {bytes : List UInt8} (rest : List UInt8)
    (bare : ∀ c ∈ b :: bytes, IsBare c) (fits : (b :: bytes).length ≤ limit) :
    extent limit (b :: bytes ++ rest) = extentFrom limit .literal (b :: bytes).length rest := by
  obtain ⟨quote, openBrace, openBracket, -⟩ := (bare b List.mem_cons_self).1
  have passes : Passes limit .literal (b :: bytes) := by
    apply passes_of_forall
    intro c member length rest fits
    have below : ¬ limit < length + 1 := Nat.not_lt.mpr fits
    simp only [List.singleton_append, extentFrom, (bare c member).2, Bool.false_eq_true, below, ite_false,
      List.length_singleton]
  have measured := passes 0 rest (by omega)
  simp only [List.cons_append] at measured ⊢
  simp only [extent, quote, openBrace, openBracket, or_self, ite_false]
  rw [measured, Nat.zero_add]

theorem extent_quoted {limit : Nat} {text : List UInt8} (rest : List UInt8) (quotable : Quotable text)
    (fits : text = [] ∨ text.length + 1 ≤ limit) :
    extent limit (inQuotes text ++ rest) = .complete (inQuotes text).length := by
  rcases fits with rfl | fits
  · rfl
  simp only [inQuotes, List.length_cons, List.length_append, List.length_nil]
  have measured := @passes_quotable limit 0 text quotable 1 (0x22 :: rest) (by omega)
  have notBackslash : ¬ (0x22 : UInt8) = 0x5C := by decide
  simp only [List.cons_append, List.append_assoc, List.nil_append, extent, ite_true]
  rw [measured, extentFrom]
  simp only [notBackslash, ite_false, and_self, ite_true]
  congr 1
  omega

theorem extent_bracketed {limit : Nat} {opening closing : UInt8} {bytes : List UInt8} (rest : List UInt8)
    (opens : opening = 0x7B ∨ opening = 0x5B) (closes : closing = 0x7D ∨ closing = 0x5D)
    (inside : Passes limit (.container 1) bytes) (fits : bytes.length + 1 ≤ limit) :
    extent limit (opening :: (bytes ++ [closing]) ++ rest) =
      .complete (opening :: (bytes ++ [closing])).length := by
  simp only [List.length_cons, List.length_append, List.length_nil]
  have enter : ¬ limit < 1 := by omega
  have inside := inside 1 (closing :: rest) (by omega)
  have entered : extent limit (opening :: (bytes ++ closing :: rest)) =
      extentFrom limit (.container 1) 1 (bytes ++ closing :: rest) := by
    rcases opens with rfl | rfl <;> simp [extent, extentFrom, enter]
  have left : extentFrom limit (.container 1) (1 + bytes.length) (closing :: rest) =
      .complete (1 + bytes.length + 1) := by
    rcases closes with rfl | rfl <;> simp [extentFrom]
  simp only [List.cons_append, List.append_assoc, List.nil_append]
  rw [entered, inside, left]
  congr 1
  omega

/-- The length of a value up to the last byte at which the limit is tested: not at the quote that closes a string
    and not at the bracket that closes a container, and nowhere in an empty string. -/
def testedLength (value : List UInt8) : Nat :=
  if value.head?.any isLiteralStart then value.length
  else if value = inQuotes [] then 0
  else value.length - 1

theorem testedLength_le (value : List UInt8) : testedLength value ≤ value.length := by
  unfold testedLength
  split
  · exact Nat.le_refl _
  · split
    · exact Nat.zero_le _
    · exact Nat.sub_le _ _

theorem testedLength_inQuotes (text : List UInt8) :
    testedLength (inQuotes text) = if text = [] then 0 else text.length + 1 := by
  have notLiteral : ¬ (inQuotes text).head?.any isLiteralStart = true := by simp [inQuotes, isLiteralStart]
  have same : inQuotes text = inQuotes [] ↔ text = [] := by simp [inQuotes]
  rw [testedLength, if_neg notLiteral]
  simp only [same]
  split
  · rfl
  · simp only [inQuotes, List.length_cons, List.length_append, List.length_nil]
    omega

theorem testedLength_bracketed {opening closing : UInt8} (opens : opening = 0x7B ∨ opening = 0x5B)
    (bytes : List UInt8) : testedLength (opening :: (bytes ++ [closing])) = bytes.length + 1 := by
  have notLiteral : ¬ (opening :: (bytes ++ [closing])).head?.any isLiteralStart = true := by
    rcases opens with rfl | rfl <;> simp [isLiteralStart]
  have notQuoted : opening :: (bytes ++ [closing]) ≠ inQuotes [] := by
    rcases opens with rfl | rfl <;> simp [inQuotes]
  rw [testedLength, if_neg notLiteral, if_neg notQuoted]
  simp only [List.length_cons, List.length_append, List.length_nil]
  omega

/-- Of a value within the limit, where this is tested, all is measured, whatever stands behind it. Only a literal does
    not end by itself. -/
theorem extent_tested {limit : Nat} {bytes : List UInt8} (wellformed : Wellformed .value bytes)
    (fits : testedLength bytes ≤ limit) (rest : List UInt8) :
    extent limit (bytes ++ rest) =
      if bytes.head?.any isLiteralStart then extentFrom limit .literal bytes.length rest
      else .complete bytes.length := by
  cases wellformed with
  | null => exact extent_bare rest (by decide +kernel) fits
  | bool value => cases value <;> exact extent_bare rest (by decide +kernel) fits
  | number number =>
    obtain ⟨b, tail, split, lead⟩ := (Written.number number).exists_lead
    rw [Written.bytes] at split
    have bare := number.isBare
    rw [split] at fits bare ⊢
    have literal : isLiteralStart b = true := by
      obtain ⟨quote, openBrace, openBracket, -⟩ := (bare b List.mem_cons_self).1
      simp only [isLiteralStart, beq_eq_false_iff_ne.mpr quote, beq_eq_false_iff_ne.mpr openBrace,
        beq_eq_false_iff_ne.mpr openBracket, Bool.or_self, Bool.not_false]
    simp only [testedLength, List.head?_cons, Option.any_some, literal, ite_true] at fits ⊢
    exact extent_bare rest bare fits
  | @string text body =>
    rw [testedLength_inQuotes] at fits
    by_cases empty : text = []
    · exact extent_quoted rest body (.inl empty)
    · rw [if_neg empty] at fits
      exact extent_quoted rest body (.inr fits)
  | array blank inside =>
    rw [testedLength_bracketed (.inr rfl)] at fits
    exact extent_bracketed rest (.inr rfl) (.inr rfl)
      ((passes_blanks blank).append (passes_wellformed inside)) fits
  | object blank inside =>
    rw [testedLength_bracketed (.inl rfl)] at fits
    exact extent_bracketed rest (.inl rfl) (.inl rfl)
      ((passes_blanks blank).append (passes_wellformed inside)) fits

theorem extent_wellformed {limit : Nat} {bytes : List UInt8} (wellformed : Wellformed .value bytes)
    (fits : bytes.length ≤ limit) (rest : List UInt8) :
    extent limit (bytes ++ rest) =
      if bytes.head?.any isLiteralStart then extentFrom limit .literal bytes.length rest
      else .complete bytes.length :=
  extent_tested wellformed (Nat.le_trans (testedLength_le bytes) fits) rest

theorem extentFrom_delimiter {limit length : Nat} {stop : UInt8} (ends : endsLiteral stop = true)
    (rest : List UInt8) : extentFrom limit .literal length (stop :: rest) = .complete length := by
  simp only [extentFrom, ends, ite_true]

/-- A value within the limit is measured to its last byte, when a delimiter stands behind it. -/
theorem extent_written {limit : Nat} {stop : UInt8} (written : Written) (rest : List UInt8)
    (fits : written.bytes.length ≤ limit) (ends : endsLiteral stop = true) :
    extent limit (written.bytes ++ stop :: rest) = .complete written.bytes.length := by
  rw [extent_wellformed written.wellformed fits, extentFrom_delimiter ends, ite_self]

end EpcisDigest.Json
