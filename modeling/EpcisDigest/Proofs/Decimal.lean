import EpcisDigest.Decimal
import EpcisDigest.Proofs.Json.Numeral
import EpcisDigest.Proofs.Time.Digits
import Mathlib.Data.List.DropRight
import Mathlib.Tactic.NormNum

namespace EpcisDigest.Decimal

open Time (IsNumeral numberOf fractionOf)

structure WellFormed (d : Decimal) : Prop where
  whole : IsNumeral d.whole
  fraction : ∀ digits, d.fraction = some digits → IsNumeral digits

/-- The text is this number: an optional minus sign, digits, and where there is a point digits behind it. -/
def Spells (d : Decimal) (value : String) : Prop :=
  d.WellFormed ∧ value.toList = d.toChars

def places (d : Decimal) : List Char :=
  d.fraction.getD []

def number (d : Decimal) : ℚ :=
  if d.negative then -(numberOf d.whole + fractionOf d.places) else numberOf d.whole + fractionOf d.places

section Reading

theorem isDigit_point : ('.').isDigit = false := by decide

theorem ne_point {c : Char} (digit : c.isDigit = true) : c ≠ '.' := by
  rintro rfl
  rw [isDigit_point] at digit
  cases digit

theorem ofUnsigned?_written {d : Decimal} (formed : d.WellFormed) {cs : List Char}
    (written : d.toChars = (if d.negative then ['-'] else []) ++ cs) : ofUnsigned? d.negative cs = some d := by
  obtain ⟨negative, whole, fraction⟩ := d
  have filled : whole ≠ [] := formed.whole.1
  cases fraction with
  | none =>
    have same : cs = whole := by simpa [toChars] using written.symm
    have split := Json.takeWhile_append_of_head formed.whole.2
      (show ∀ c ∈ ([] : List Char).head?, c.isDigit = false by simp)
    rw [List.append_nil] at split
    simp [ofUnsigned?, same, split, filled]
  | some digits =>
    have same : cs = whole ++ '.' :: digits := by simpa [toChars] using written.symm
    have split := Json.takeWhile_append_of_head formed.whole.2
      (show ∀ c ∈ ('.' :: digits).head?, c.isDigit = false by simp [isDigit_point])
    have numeral : digits ≠ [] ∧ ∀ c ∈ digits, c.isDigit = true := formed.fraction digits rfl
    simp [ofUnsigned?, same, split, filled, numeral.1]
    exact numeral.2

theorem of_ofUnsigned? {negative : Bool} {cs : List Char} {d : Decimal} (read : ofUnsigned? negative cs = some d) :
    d.WellFormed ∧ d.toChars = (if negative then ['-'] else []) ++ cs := by
  have digits : ∀ c ∈ cs.takeWhile Char.isDigit, c.isDigit = true := fun c member => List.mem_takeWhile_imp member
  have whole := List.takeWhile_append_dropWhile (p := Char.isDigit) (l := cs)
  simp only [ofUnsigned?] at read
  split at read
  case isTrue => cases read
  case isFalse filled =>
    split at read
    case h_1 ends =>
      injection read with read
      subst read
      rw [ends, List.append_nil] at whole
      refine ⟨⟨⟨filled, digits⟩, ?_⟩, ?_⟩
      · intro fraction found
        cases found
      · simp [toChars, whole]
    case h_2 c fraction begins =>
      split at read
      case isFalse => cases read
      case isTrue numeral =>
        injection read with read
        subst read
        obtain ⟨rfl, any, all⟩ := numeral
        refine ⟨⟨⟨filled, digits⟩, ?_⟩, ?_⟩
        · rintro _ ⟨⟩
          exact ⟨any, List.all_eq_true.mp all⟩
        · rw [begins] at whole
          simp [toChars, whole]

theorem ofChars?_eq_some_iff {cs : List Char} {d : Decimal} : ofChars? cs = some d ↔ d.WellFormed ∧ cs = d.toChars := by
  constructor
  · intro read
    unfold ofChars? at read
    split at read
    case h_1 => cases read
    case h_2 c cs =>
      split at read
      case isTrue minus =>
        obtain ⟨formed, written⟩ := of_ofUnsigned? read
        exact ⟨formed, by simp [written, minus]⟩
      case isFalse =>
        obtain ⟨formed, written⟩ := of_ofUnsigned? read
        exact ⟨formed, by simp [written]⟩
  · rintro ⟨formed, rfl⟩
    cases sign : d.negative with
    | true =>
      obtain ⟨cs, written⟩ : ∃ cs, d.toChars = '-' :: cs := by simp [toChars, sign]
      have read : ofUnsigned? d.negative cs = some d := ofUnsigned?_written formed (by simp [written, sign])
      rw [written, ofChars?, if_pos rfl, ← sign, read]
    | false =>
      obtain ⟨c, cs, whole⟩ := List.exists_cons_of_ne_nil formed.whole.1
      obtain ⟨others, written⟩ : ∃ others, d.toChars = c :: others := by simp [toChars, sign, whole]
      have digit : c.isDigit = true := formed.whole.2 c (by simp [whole])
      have other : c ≠ '-' := by
        rintro rfl
        revert digit
        decide
      have read : ofUnsigned? d.negative d.toChars = some d := ofUnsigned?_written formed (by simp [sign])
      rw [written, ofChars?, if_neg other, ← written, ← sign, read]

/-- The shortened form is that of the number which the text spells. -/
theorem shortNumber?_eq_some_iff {value short : String} :
    shortNumber? value = some short ↔ ∃ d : Decimal, d.Spells value ∧ short.toList = d.shorten.toChars := by
  unfold shortNumber?
  rw [Option.map_eq_some_iff]
  constructor
  · rintro ⟨d, read, rfl⟩
    exact ⟨d, ofChars?_eq_some_iff.mp read, String.toList_ofList⟩
  · rintro ⟨d, spells, printed⟩
    refine ⟨d, ofChars?_eq_some_iff.mpr spells, ?_⟩
    rw [← printed, String.ofList_toList]

theorem Spells.unique {d d' : Decimal} {value : String} (spells : d.Spells value) (spells' : d'.Spells value) :
    d = d' := by
  have read := ofChars?_eq_some_iff.mpr spells
  rw [ofChars?_eq_some_iff.mpr spells'] at read
  injection read with same
  exact same.symm

end Reading

section Zeros

theorem dropTrailingZeros_eq (digits : List Char) : dropTrailingZeros digits = digits.rdropWhile (· == '0') := rfl

theorem exists_zeros (digits : List Char) : ∃ count, digits = dropTrailingZeros digits ++ List.replicate count '0' := by
  refine ⟨(digits.rtakeWhile (· == '0')).length, ?_⟩
  have zeros : digits.rtakeWhile (· == '0') = List.replicate (digits.rtakeWhile (· == '0')).length '0' := by
    apply List.eq_replicate_of_mem
    intro c member
    simpa using List.mem_rtakeWhile_imp member
  rw [← zeros, dropTrailingZeros_eq, List.rdropWhile_append_rtakeWhile]

theorem dropTrailingZeros_append_zeros (digits : List Char) (count : Nat) :
    dropTrailingZeros (digits ++ List.replicate count '0') = dropTrailingZeros digits := by
  unfold dropTrailingZeros
  rw [List.reverse_append, List.reverse_replicate, List.dropWhile_append_of_pos]
  simp

theorem getLast?_dropTrailingZeros (digits : List Char) : (dropTrailingZeros digits).getLast? ≠ some '0' := by
  intro last
  rw [dropTrailingZeros_eq] at last
  have filled : digits.rdropWhile (· == '0') ≠ [] := by
    intro none
    simp [none] at last
  have other := List.rdropWhile_last_not (· == '0') digits filled
  rw [List.getLast?_eq_some_getLast filled, Option.some_inj] at last
  exact other (by simp [last])

theorem fractionOf_dropTrailingZeros (digits : List Char) :
    fractionOf (dropTrailingZeros digits) = fractionOf digits := by
  obtain ⟨count, whole⟩ := exists_zeros digits
  conv => rhs; rw [whole]
  rw [Time.fractionOf_append_zeros]

/-- Behind a point only zeros at the end make no difference. -/
theorem fractionOf_inj {digits digits' : List Char} (numeric : ∀ c ∈ digits, c.isDigit = true)
    (numeric' : ∀ c ∈ digits', c.isDigit = true) :
    fractionOf digits = fractionOf digits' ↔ dropTrailingZeros digits = dropTrailingZeros digits' := by
  constructor
  · intro same
    rw [Time.fractionOf_eq_iff] at same
    -- filled up to one length, both are the same digits
    have filled : digits ++ List.replicate digits'.length '0' = digits' ++ List.replicate digits.length '0' := by
      apply Time.eq_of_numberOf
      · simp only [List.mem_append, List.mem_replicate]
        rintro c (member | ⟨-, rfl⟩)
        · exact numeric c member
        · decide
      · simp only [List.mem_append, List.mem_replicate]
        rintro c (member | ⟨-, rfl⟩)
        · exact numeric' c member
        · decide
      · simp [Nat.add_comm]
      · simpa [Time.numberOf_append, Time.numberOf_zeros] using same
    have dropped := congrArg dropTrailingZeros filled
    rwa [dropTrailingZeros_append_zeros, dropTrailingZeros_append_zeros] at dropped
  · intro same
    rw [← fractionOf_dropTrailingZeros digits, same, fractionOf_dropTrailingZeros]

end Zeros

section Shorten

variable {d d' : Decimal}

theorem shorten_eq (d : Decimal) : d.shorten = ⟨d.negative, d.whole,
    if dropTrailingZeros d.places = [] then none else some (dropTrailingZeros d.places)⟩ := by
  obtain ⟨negative, whole, fraction⟩ := d
  cases fraction with
  | none => rfl
  | some digits =>
    cases kept : dropTrailingZeros digits with
    | nil => simp [shorten, places, kept]
    | cons c cs => simp [shorten, places, kept]

theorem places_shorten (d : Decimal) : d.shorten.places = dropTrailingZeros d.places := by
  rw [shorten_eq]
  change Option.getD (if dropTrailingZeros d.places = [] then none else some (dropTrailingZeros d.places)) [] = _
  split
  case isTrue nothing => rw [nothing, Option.getD_none]
  case isFalse => rw [Option.getD_some]

theorem WellFormed.places (formed : d.WellFormed) : ∀ c ∈ d.places, c.isDigit = true := by
  unfold Decimal.places
  cases fraction : d.fraction with
  | none => simp
  | some digits => exact (formed.fraction digits fraction).2

theorem WellFormed.shorten (formed : d.WellFormed) : d.shorten.WellFormed := by
  rw [shorten_eq]
  refine ⟨formed.whole, fun digits found => ?_⟩
  dsimp only at found
  split at found
  case isTrue => cases found
  case isFalse filled =>
    injection found with found
    subst found
    refine ⟨filled, fun c member => formed.places c ?_⟩
    rw [dropTrailingZeros_eq] at member
    exact (List.rdropWhile_prefix (· == '0') d.places).subset member

theorem number_shorten (d : Decimal) : d.shorten.number = d.number := by
  unfold number
  rw [places_shorten, fractionOf_dropTrailingZeros, shorten_eq]

structure Shortened (d e : Decimal) : Prop where
  number : e.number = d.number
  negative : e.negative = d.negative
  whole : e.whole = d.whole
  ends : ∀ digits, e.fraction = some digits → digits.getLast? ≠ some '0'

theorem shortened_shorten (d : Decimal) : Shortened d d.shorten := by
  refine ⟨number_shorten d, by rw [shorten_eq], by rw [shorten_eq], fun digits found => ?_⟩
  rw [shorten_eq] at found
  dsimp only at found
  split at found
  case isTrue => cases found
  case isFalse =>
    injection found with found
    rw [← found]
    exact getLast?_dropTrailingZeros d.places

theorem shorten_shorten (d : Decimal) : d.shorten.shorten = d.shorten := by
  have idempotent : dropTrailingZeros (dropTrailingZeros d.places) = dropTrailingZeros d.places :=
    List.rdropWhile_idempotent (· == '0') d.places
  rw [shorten_eq d.shorten, places_shorten, idempotent, shorten_eq d]

theorem shorten_eq_iff (formed : d.WellFormed) (formed' : d'.WellFormed) (sign : d.negative = d'.negative)
    (whole : d.whole = d'.whole) : d.shorten = d'.shorten ↔ d.number = d'.number := by
  have fractions : d.number = d'.number ↔ fractionOf d.places = fractionOf d'.places := by
    unfold number
    rw [sign, whole]
    split <;> simp
  rw [fractions, fractionOf_inj formed.places formed'.places]
  constructor
  · intro same
    rw [← places_shorten, same, places_shorten]
  · intro same
    rw [shorten_eq, shorten_eq, sign, whole, same]

/-- Trimmed of zeros and then of points, a text with a point keeps what stands before the point. -/
theorem rdropWhile_fraction {front digits : List Char} {last : Char} (lastDigit : last.isDigit = true)
    (numeric : ∀ c ∈ digits, c.isDigit = true) :
    ((front ++ [last] ++ '.' :: digits).rdropWhile (· == '0')).rdropWhile (· == '.') = front ++ [last] ++
      if dropTrailingZeros digits = [] then [] else '.' :: dropTrailingZeros digits := by
  obtain ⟨count, zeros⟩ := exists_zeros digits
  have dropped : (front ++ [last] ++ '.' :: digits).rdropWhile (· == '0') =
      (front ++ [last] ++ '.' :: dropTrailingZeros digits).rdropWhile (· == '0') := by
    conv => lhs; rw [zeros]
    rw [← List.cons_append, ← List.append_assoc]
    exact dropTrailingZeros_append_zeros _ count
  rw [dropped]
  -- what is left behind the point ends in a digit other than zero, or is nothing
  rcases List.eq_nil_or_concat' (dropTrailingZeros digits) with nothing | ⟨others, c, ends⟩
  · have other : last ≠ '.' := ne_point lastDigit
    rw [nothing, if_pos rfl, List.append_nil, List.rdropWhile_concat_neg _ _ _ (by decide),
      List.rdropWhile_concat_pos _ _ _ (by decide), List.rdropWhile_concat_neg _ _ _ (by simpa using other)]
  · have other : c ≠ '.' := by
      apply ne_point
      apply numeric
      rw [zeros, ends]
      simp
    have notZero : c ≠ '0' := by
      rintro rfl
      apply getLast?_dropTrailingZeros digits
      simp [ends]
    rw [ends, if_neg (by simp), ← List.cons_append, ← List.append_assoc,
      List.rdropWhile_concat_neg _ _ _ (by simpa using notZero), List.rdropWhile_concat_neg _ _ _ (by simpa using other)]

/-- Zeros at the end of the whole text, and then a point, are all that the shortened form leaves out. -/
theorem toChars_shorten (formed : d.WellFormed) : d.shorten.toChars =
    if '.' ∈ d.toChars then (d.toChars.rdropWhile (· == '0')).rdropWhile (· == '.') else d.toChars := by
  obtain ⟨negative, whole, fraction⟩ := d
  cases fraction with
  | none =>
    have free : '.' ∉ whole := fun member => ne_point (formed.whole.2 _ member) rfl
    rw [if_neg]
    · rfl
    · cases negative <;> simp [toChars, free]
  | some digits =>
    obtain ⟨front, last, rfl⟩ := (List.eq_nil_or_concat' whole).resolve_left formed.whole.1
    have written : toChars ⟨negative, front ++ [last], some digits⟩ =
        (if negative then ['-'] else []) ++ front ++ [last] ++ '.' :: digits := by
      simp [toChars]
    rw [if_pos (by simp [toChars]), written,
      rdropWhile_fraction (formed.whole.2 last (by simp)) (formed.fraction digits rfl).2, shorten_eq]
    change toChars ⟨_, _, if dropTrailingZeros digits = [] then none else some (dropTrailingZeros digits)⟩ = _
    split <;> simp [toChars]

end Shorten

/-- Exactly the numbers have a shortened form. It spells the number itself, is its own shortened form, is what is left
    of a text with a point without the zeros at the end and then the point, and with one sign and one whole part
    different numbers have different ones. -/
theorem shortNumber?_canonical (value : String) :
    ((∃ short, shortNumber? value = some short) ↔ ∃ d : Decimal, d.Spells value) ∧
    ∀ d : Decimal, d.Spells value → ∃ (short : String) (e : Decimal), shortNumber? value = some short ∧ e.Spells short ∧
      Shortened d e ∧ shortNumber? short = some short ∧
      (short.toList = if '.' ∈ value.toList then (value.toList.rdropWhile (· == '0')).rdropWhile (· == '.')
        else value.toList) ∧
      ∀ (other : String) (d' : Decimal), d'.Spells other → d'.negative = d.negative → d'.whole = d.whole →
        (shortNumber? other = some short ↔ d'.number = d.number) := by
  refine ⟨⟨?_, ?_⟩, ?_⟩
  · rintro ⟨short, read⟩
    obtain ⟨d, spells, -⟩ := shortNumber?_eq_some_iff.mp read
    exact ⟨d, spells⟩
  · rintro ⟨d, spells⟩
    exact ⟨String.ofList d.shorten.toChars, shortNumber?_eq_some_iff.mpr ⟨d, spells, String.toList_ofList⟩⟩
  · intro d spells
    have printed : (String.ofList d.shorten.toChars).toList = d.shorten.toChars := String.toList_ofList
    have again : d.shorten.Spells (String.ofList d.shorten.toChars) := ⟨spells.1.shorten, printed⟩
    refine ⟨String.ofList d.shorten.toChars, d.shorten, ?_, again, shortened_shorten d, ?_, ?_, ?_⟩
    · exact shortNumber?_eq_some_iff.mpr ⟨d, spells, printed⟩
    · exact shortNumber?_eq_some_iff.mpr ⟨d.shorten, again, by rw [printed, shorten_shorten]⟩
    · rw [printed, toChars_shorten spells.1, spells.2]
    · intro other d' spells' negative whole
      rw [← shorten_eq_iff spells'.1 spells.1 negative whole, shortNumber?_eq_some_iff, printed]
      constructor
      · rintro ⟨d'', spells'', same⟩
        obtain rfl := spells'.unique spells''
        exact Spells.unique ⟨spells'.1.shorten, printed.trans same⟩ again
      · intro same
        exact ⟨d', spells', by rw [same]⟩

theorem shortNumber?_canonical_price :
    (⟨true, ['1', '2', '0'], some ['5', '0', '0']⟩ : Decimal).Spells "-120.500" ∧
    shortNumber? "-120.500" = some "-120.5" ∧ shortNumber? "-120.50" = some "-120.5" ∧
      shortNumber? "-120.05" ≠ some "-120.5" := by
  have spells : (⟨true, ['1', '2', '0'], some ['5', '0', '0']⟩ : Decimal).Spells "-120.500" :=
    ofChars?_eq_some_iff.mp (by decide)
  have equal : (⟨true, ['1', '2', '0'], some ['5', '0']⟩ : Decimal).Spells "-120.50" :=
    ofChars?_eq_some_iff.mp (by decide)
  have other : (⟨true, ['1', '2', '0'], some ['0', '5']⟩ : Decimal).Spells "-120.05" :=
    ofChars?_eq_some_iff.mp (by decide)
  have five : '5'.toNat - '0'.toNat = 5 := by decide
  obtain ⟨short, -, read, -, -, -, -, same⟩ := (shortNumber?_canonical "-120.500").2 _ spells
  obtain rfl : "-120.5" = short := by
    have printed : shortNumber? "-120.500" = some "-120.5" := by decide
    rw [printed] at read
    injection read
  refine ⟨spells, read, (same _ _ equal rfl rfl).mpr ?_, fun read' => ?_⟩
  · norm_num [number, places, fractionOf, numberOf, five]
  · have number := (same _ _ other rfl rfl).mp read'
    norm_num [Decimal.number, places, fractionOf, numberOf, five] at number

end EpcisDigest.Decimal
