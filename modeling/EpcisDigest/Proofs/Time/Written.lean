import EpcisDigest.Proofs.Json.Numeral
import EpcisDigest.Proofs.Time.Calendar
import EpcisDigest.Proofs.Time.Digits
import Mathlib.Data.List.TakeWhile

namespace EpcisDigest.Time

open Text (isBlank)

/-- What a timestamp shows: a date and a time of day, the digits behind the point of the second, and by how many
    minutes the clock is ahead of UTC. -/
structure Shown where
  date : Date
  hour : Nat
  minute : Nat
  second : Nat
  fraction : List Char
  ahead : Int

namespace Shown

structure Valid (shown : Shown) : Prop where
  date : shown.date.Valid
  hour : shown.hour ≤ 23
  minute : shown.minute ≤ 59
  second : shown.second ≤ 60

end Shown

section Forms

def Fixed (count n : Nat) (cs : List Char) : Prop :=
  cs.length = count ∧ (∀ c ∈ cs, c.isDigit = true) ∧ numberOf cs = n

instance (count n : Nat) (cs : List Char) : Decidable (Fixed count n cs) :=
  decidable_of_iff (cs.length = count ∧ cs.all Char.isDigit = true ∧ numberOf cs = n) (by simp [Fixed])

def FourDigits (year : Int) (cs : List Char) : Prop :=
  ∃ n : Nat, year = n ∧ Fixed 4 n cs

def Short (count n : Nat) (cs : List Char) : Prop :=
  ∃ blanks digits, cs = blanks ++ digits ∧ (∀ c ∈ blanks, isBlank c = true) ∧ IsNumeral digits ∧
    digits.length ≤ count ∧ numberOf digits = n

inductive LooseYear : Int → List Char → Prop where
  | short {n : Nat} {cs : List Char} (short : Short 4 n cs) : LooseYear n cs
  | later {blanks digits : List Char} (blank : ∀ c ∈ blanks, isBlank c = true) (numeral : IsNumeral digits) :
      LooseYear (numberOf digits) (blanks ++ '+' :: digits)
  | earlier {blanks digits : List Char} (blank : ∀ c ∈ blanks, isBlank c = true) (numeral : IsNumeral digits) :
      LooseYear (-numberOf digits) (blanks ++ '-' :: digits)

inductive Fraction : List Char → List Char → Prop where
  | none : Fraction [] []
  | point {digits : List Char} (numeral : IsNumeral digits) : Fraction digits ('.' :: digits)

def Distance (distance : Nat) (cs : List Char) : Prop :=
  ∃ hours minutes hour minute, cs = hour ++ ':' :: minute ∧ Fixed 2 hours hour ∧ Fixed 2 minutes minute ∧
    hours ≤ 23 ∧ minutes ≤ 59 ∧ distance = hours * 60 + minutes

inductive Zone : Int → List Char → Prop where
  | utc {c : Char} (letter : c = 'Z' ∨ c = 'z') : Zone 0 [c]
  | ahead {n : Nat} {cs : List Char} (distance : Distance n cs) : Zone n ('+' :: cs)
  | behind {minus : Char} {n : Nat} {cs : List Char} (sign : minus = '-' ∨ minus = '\u2212') (distance : Distance n cs) :
      Zone (-n) (minus :: cs)

/-- The layout of a timestamp, with given forms of the year, of the other numbers and of the end, and characters that
    may stand between date and time. -/
def Lays (Year : Int → List Char → Prop) (Number : Nat → List Char → Prop) (separators : List Char)
    (End : Int → List Char → Prop) (shown : Shown) (cs : List Char) : Prop :=
  ∃ year month day separator hour minute second fraction zone,
    cs = year ++ '-' :: (month ++ '-' :: (day ++ separator :: (hour ++ ':' :: (minute ++ ':' :: (second ++
      (fraction ++ zone)))))) ∧
    Year shown.date.year year ∧ Number shown.date.month month ∧ Number shown.date.day day ∧ separator ∈ separators ∧
    Number shown.hour hour ∧ Number shown.minute minute ∧ Number shown.second second ∧
    Fraction shown.fraction fraction ∧ End shown.ahead zone

def Zoned : Shown → List Char → Prop :=
  Lays FourDigits (Fixed 2) ['T', 't', ' '] Zone

def Zoneless (shown : Shown) (cs : List Char) : Prop :=
  Lays LooseYear (Short 2) ['T'] (fun ahead zone => ahead = 0 ∧ zone = []) shown cs ∧ yearInRange shown.date.year

def Written (shown : Shown) (cs : List Char) : Prop :=
  Zoned shown cs ∨ Zoneless shown cs

end Forms

section Numbers

variable {count n : Nat} {cs rest : List Char}

def Stops (rest : List Char) : Prop :=
  ∀ c ∈ rest.head?, c.isDigit = false

theorem fixedDigits?_eq_some_iff :
    fixedDigits? count cs = some (n, rest) ↔ ∃ front, cs = front ++ rest ∧ Fixed count n front := by
  unfold fixedDigits?
  constructor
  · intro read
    dsimp only at read
    split at read
    case isFalse => cases read
    case isTrue digits =>
      cases read
      exact ⟨cs.take count, (List.take_append_drop count cs).symm, digits.1, List.all_eq_true.mp digits.2, rfl⟩
  · rintro ⟨front, rfl, rfl, digits, rfl⟩
    rw [List.take_left, List.drop_left, if_pos ⟨rfl, List.all_eq_true.mpr digits⟩]

theorem exists_short_of_someDigits? (read : someDigits? count cs = some (n, rest)) :
    ∃ front, cs = front ++ rest ∧ Short count n front := by
  have blanks := List.takeWhile_append_dropWhile (p := isBlank) (l := cs)
  obtain ⟨behind, split⟩ : ((cs.dropWhile isBlank).take count).takeWhile Char.isDigit <+: cs.dropWhile isBlank :=
    (List.takeWhile_prefix _).trans (List.take_prefix _ _)
  have few := Nat.le_trans (List.takeWhile_prefix Char.isDigit).length_le
    (List.length_take_le count (cs.dropWhile isBlank))
  have numeric : ∀ c ∈ ((cs.dropWhile isBlank).take count).takeWhile Char.isDigit, c.isDigit = true :=
    fun c member => List.mem_takeWhile_imp member
  unfold someDigits? at read
  dsimp only at read
  generalize ((cs.dropWhile isBlank).take count).takeWhile Char.isDigit = digits at *
  split at read
  case isTrue => cases read
  case isFalse any =>
    simp only [Option.some.injEq, Prod.mk.injEq] at read
    obtain ⟨rfl, rfl⟩ := read
    refine ⟨cs.takeWhile isBlank ++ digits, ?_, _, _, rfl, fun c member => List.mem_takeWhile_imp member,
      ⟨any, numeric⟩, few, rfl⟩
    rw [← split, List.drop_left, List.append_assoc, split, blanks]

theorem isBlank_eq_false_of_isDigit {c : Char} (digit : c.isDigit = true) : isBlank c = false := by
  have bounds := bounds_of_isDigit digit
  unfold isBlank
  simp
  omega

theorem someDigits?_short {front : List Char} (short : Short count n front) (stop : Stops rest) :
    someDigits? count (front ++ rest) = some (n, rest) := by
  obtain ⟨blanks, digits, rfl, blank, numeral, few, rfl⟩ := short
  have notBlank : ∀ c ∈ (digits ++ rest).head?, isBlank c = false := by
    obtain ⟨c, cs, rfl⟩ := List.exists_cons_of_ne_nil numeral.1
    simpa using isBlank_eq_false_of_isDigit numeral.head
  have behind := (Json.takeWhile_append_of_head blank notBlank).2
  have taken : ((digits ++ rest).take count).takeWhile Char.isDigit = digits := by
    rw [List.take_append, List.take_of_length_le few]
    refine (Json.takeWhile_append_of_head numeral.2 fun c member => ?_).1
    rw [List.head?_take] at member
    split at member
    · cases member
    · exact stop c member
  simp only [someDigits?, List.append_assoc, behind, taken, if_neg numeral.1, List.drop_left]

end Numbers

section Year

theorem numberOf_dropZeros (digits : List Char) : numberOf (digits.dropWhile (· == '0')) = numberOf digits := by
  have zeros : digits.takeWhile (· == '0') = List.replicate (digits.takeWhile (· == '0')).length '0' := by
    apply List.eq_replicate_of_mem
    intro c member
    simpa using List.mem_takeWhile_imp member
  conv => rhs; rw [← List.takeWhile_append_dropWhile (p := (· == '0')) (l := digits), numberOf_append, zeros, numberOf_zeros]
  omega

theorem numberOf_cons_ge {c : Char} (digits : List Char) (digit : c.isDigit = true) (positive : c ≠ '0') :
    10 ^ digits.length ≤ numberOf (c :: digits) := by
  have value : 1 ≤ digitValue c := by
    rcases Nat.eq_zero_or_pos (digitValue c) with none | some
    · have same := ofNat_digitValue digit
      rw [none] at same
      exact absurd same.symm positive
    · exact some
  have whole := numberOf_append [c] digits
  rw [List.singleton_append, show numberOf [c] = digitValue c by simp [numberOf, digitValue]] at whole
  have least := Nat.mul_le_mul_right (10 ^ digits.length) value
  omega

/-- Cut to seven digits, a year is the same or has no place on the time line in either form. -/
theorem longYear_cases {digits : List Char} (numeric : ∀ c ∈ digits, c.isDigit = true) :
    longYear digits = numberOf digits ∨ 1000000 ≤ longYear digits ∧ 1000000 ≤ numberOf digits := by
  have numeric' : ∀ c ∈ digits.dropWhile (· == '0'), c.isDigit = true :=
    fun c member => numeric c ((List.dropWhile_suffix _).subset member)
  have head := List.head?_dropWhile_not (· == '0') digits
  rw [longYear, ← numberOf_dropZeros digits]
  generalize digits.dropWhile (· == '0') = kept at *
  rcases Nat.lt_or_ge 7 kept.length with long | short
  · right
    obtain ⟨c, others, rfl⟩ := List.exists_cons_of_length_pos (Nat.lt_trans (by decide) long)
    have positive : c ≠ '0' := by simpa using head
    have digit := numeric' c List.mem_cons_self
    rw [List.length_cons] at long
    have count : (others.take 6).length = 6 := by
      rw [List.length_take]
      omega
    have front := numberOf_cons_ge (others.take 6) digit positive
    have whole := numberOf_cons_ge others digit positive
    have power : 10 ^ 6 ≤ 10 ^ others.length := Nat.pow_le_pow_right (by decide) (by omega)
    rw [count] at front
    exact ⟨front, Nat.le_trans power whole⟩
  · left
    rw [List.take_of_length_le short]

theorem longYear_eq {digits : List Char} (numeric : ∀ c ∈ digits, c.isDigit = true)
    (inRange : longYear digits ≤ 262143 ∨ numberOf digits ≤ 262143) : longYear digits = numberOf digits := by
  rcases longYear_cases numeric with same | ⟨large, large'⟩
  · exact same
  · omega

theorem Short.behind_blanks {blanks cs : List Char} {count n : Nat} (blank : ∀ c ∈ blanks, isBlank c = true)
    (short : Short count n cs) : Short count n (blanks ++ cs) := by
  obtain ⟨blanks', digits, rfl, blank', numeral, few, rfl⟩ := short
  refine ⟨blanks ++ blanks', digits, (List.append_assoc _ _ _).symm, ?_, numeral, few, rfl⟩
  intro c member
  exact (List.mem_append.mp member).elim (blank c) (blank' c)

theorem looseYear_signed {blanks digits : List Char} {c : Char} (sign : c = '+' ∨ c = '-')
    (blank : ∀ c ∈ blanks, isBlank c = true) (numeral : IsNumeral digits) :
    LooseYear (if c = '-' then -(numberOf digits : Int) else numberOf digits) (blanks ++ c :: digits) := by
  rcases sign with rfl | rfl
  · exact .later blank numeral
  · exact .earlier blank numeral

theorem exists_looseYear_of_year? {cs rest : List Char} {year : Int} (read : year? cs = some (year, rest))
    (inRange : yearInRange year) : ∃ front, cs = front ++ rest ∧ LooseYear year front := by
  have blanks := List.takeWhile_append_dropWhile (p := isBlank) (l := cs)
  have blank : ∀ c ∈ cs.takeWhile isBlank, isBlank c = true := fun c member => List.mem_takeWhile_imp member
  unfold year? at read
  split at read
  case h_1 => cases read
  case h_2 c behind begins =>
    rw [begins] at blanks
    split at read
    case isTrue sign =>
      dsimp only at read
      split at read
      case isTrue => cases read
      case isFalse any =>
        have numeral : IsNumeral (behind.takeWhile Char.isDigit) := ⟨any, fun c member => List.mem_takeWhile_imp member⟩
        have split := List.takeWhile_append_dropWhile (p := Char.isDigit) (l := behind)
        simp only [Option.some.injEq, Prod.mk.injEq] at read
        obtain ⟨rfl, rfl⟩ := read
        unfold yearInRange at inRange
        have same := longYear_eq numeral.2 (.inl (by split at inRange <;> omega))
        refine ⟨cs.takeWhile isBlank ++ c :: behind.takeWhile Char.isDigit, by simp [split, blanks], ?_⟩
        rw [same]
        exact looseYear_signed sign blank numeral
    case isFalse =>
      obtain ⟨found, short, same⟩ := Option.map_eq_some_iff.mp read
      obtain ⟨n, rest'⟩ := found
      simp only [Prod.mk.injEq] at same
      obtain ⟨rfl, rfl⟩ := same
      obtain ⟨front, split, form⟩ := exists_short_of_someDigits? short
      exact ⟨cs.takeWhile isBlank ++ front, by rw [List.append_assoc, ← split, blanks], .short (form.behind_blanks blank)⟩

theorem year?_blanks {blanks cs : List Char} (blank : ∀ c ∈ blanks, isBlank c = true) :
    year? (blanks ++ cs) = year? cs := by
  unfold year?
  rw [List.dropWhile_append_of_pos blank]

theorem year?_signed {c : Char} {digits rest : List Char} (sign : c = '+' ∨ c = '-') (numeral : IsNumeral digits)
    (inRange : numberOf digits ≤ 262143) (stop : Stops rest) :
    year? (c :: digits ++ rest) = some (if c = '-' then -(numberOf digits : Int) else numberOf digits, rest) := by
  have notBlank : isBlank c = false := by rcases sign with rfl | rfl <;> decide
  obtain ⟨taken, dropped⟩ := Json.takeWhile_append_of_head numeral.2 stop
  rw [List.cons_append]
  simp only [year?, List.dropWhile_cons, notBlank, Bool.false_eq_true, if_false, if_pos sign, taken, dropped,
    if_neg numeral.1, longYear_eq numeral.2 (.inr inRange)]

theorem year?_looseYear {front rest : List Char} {year : Int} (loose : LooseYear year front) (inRange : yearInRange year)
    (stop : Stops rest) : year? (front ++ rest) = some (year, rest) := by
  unfold yearInRange at inRange
  cases loose with
  | short short =>
    obtain ⟨blanks, digits, rfl, blank, numeral, few, rfl⟩ := short
    obtain ⟨c, cs, rfl⟩ := List.exists_cons_of_ne_nil numeral.1
    have notBlank := isBlank_eq_false_of_isDigit numeral.head
    have unsigned : ¬ (c = '+' ∨ c = '-') := by
      rintro (rfl | rfl) <;> exact absurd numeral.head (by decide)
    have read : someDigits? 4 (c :: (cs ++ rest)) = some (numberOf (c :: cs), rest) :=
      someDigits?_short ⟨[], c :: cs, rfl, by simp, numeral, few, rfl⟩ stop
    rw [List.append_assoc, year?_blanks blank, List.cons_append]
    simp only [year?, List.dropWhile_cons, notBlank, Bool.false_eq_true, if_false, if_neg unsigned, read, Option.map_some]
  | later blank numeral =>
    rw [List.append_assoc, year?_blanks blank, year?_signed (.inl rfl) numeral (by omega) stop]
    rfl
  | earlier blank numeral =>
    rw [List.append_assoc, year?_blanks blank, year?_signed (.inr rfl) numeral (by omega) stop]
    rfl

end Year

section Ends

variable {cs rest : List Char}

theorem char?_eq_some_iff {expected : Char} : char? expected cs = some rest ↔ cs = expected :: rest := by
  cases cs with
  | nil => simp [char?]
  | cons c cs =>
    by_cases same : c = expected <;> simp [char?, same]

theorem dateEnd?_eq_some_iff : dateEnd? cs = some rest ↔ ∃ c ∈ ['T', 't', ' '], cs = c :: rest := by
  cases cs with
  | nil => simp [dateEnd?]
  | cons c cs =>
    by_cases one : c = 'T' ∨ c = 't' ∨ c = ' '
    · rcases one with rfl | rfl | rfl <;> simp [dateEnd?]
    · simp only [not_or] at one
      simp [dateEnd?, one]

def milliseconds (digits : List Char) : Nat :=
  numberOf ((digits ++ ['0', '0', '0']).take 3)

theorem exists_fraction_of_fraction? {millisecond : Nat} (read : fraction? cs = some (millisecond, rest)) :
    ∃ digits front, cs = front ++ rest ∧ Fraction digits front ∧ millisecond = milliseconds digits := by
  unfold fraction? at read
  split at read
  case h_1 behind =>
    dsimp only at read
    split at read
    case isTrue => cases read
    case isFalse any =>
      have split := List.takeWhile_append_dropWhile (p := Char.isDigit) (l := behind)
      simp only [Option.some.injEq, Prod.mk.injEq] at read
      obtain ⟨rfl, rfl⟩ := read
      refine ⟨behind.takeWhile Char.isDigit, _, ?_, .point ⟨any, fun c member => List.mem_takeWhile_imp member⟩, rfl⟩
      rw [List.cons_append, split]
  case h_2 =>
    simp only [Option.some.injEq, Prod.mk.injEq] at read
    obtain ⟨rfl, rfl⟩ := read
    exact ⟨[], [], rfl, .none, rfl⟩

theorem fraction?_fraction {digits front : List Char} (fraction : Fraction digits front) (stop : Stops rest)
    (noPoint : rest.head? ≠ some '.') : fraction? (front ++ rest) = some (milliseconds digits, rest) := by
  cases fraction with
  | none =>
    unfold fraction?
    split
    case h_1 point => exact absurd (by rw [← List.nil_append rest, point]; rfl) noPoint
    case h_2 => rfl
  | point numeral =>
    obtain ⟨taken, dropped⟩ := Json.takeWhile_append_of_head numeral.2 stop
    simp only [List.cons_append, fraction?, taken, dropped, if_neg numeral.1, milliseconds]

/-- Reading the distance and giving it a sign. -/
theorem distance?_eq_some_iff {factor ahead : Int} : (do
    let (hours, cs) ← fixedDigits? 2 cs
    let (minutes, cs) ← fixedDigits? 2 (← char? ':' cs)
    if cs = [] ∧ hours ≤ 23 ∧ minutes ≤ 59 then some (factor * (hours * 60 + minutes : Nat)) else none) = some ahead ↔
      ∃ n, Distance n cs ∧ ahead = factor * n := by
  simp only [Option.bind_eq_bind, Option.bind_eq_some_iff, Prod.exists, fixedDigits?_eq_some_iff, char?_eq_some_iff]
  constructor
  · rintro ⟨hours, _, ⟨hour, rfl, hourDigits⟩, _, rfl, minutes, rest, ⟨minute, rfl, minuteDigits⟩, bounded⟩
    split at bounded
    case isFalse => cases bounded
    case isTrue bounds =>
      obtain ⟨rfl, hours_le, minutes_le⟩ := bounds
      injection bounded with bounded
      exact ⟨_, ⟨hours, minutes, hour, minute, by simp, hourDigits, minuteDigits, hours_le, minutes_le, rfl⟩, bounded.symm⟩
  · rintro ⟨_, ⟨hours, minutes, hour, minute, rfl, hourDigits, minuteDigits, hours_le, minutes_le, rfl⟩, rfl⟩
    refine ⟨hours, _, ⟨hour, rfl, hourDigits⟩, minute, rfl, minutes, [], ⟨minute, by simp, minuteDigits⟩, ?_⟩
    rw [if_pos ⟨rfl, hours_le, minutes_le⟩]

theorem offset?_eq_some_iff {ahead : Int} : offset? cs = some ahead ↔ Zone ahead cs := by
  constructor
  · intro read
    unfold offset? at read
    split at read
    case h_1 =>
      cases read
      exact .utc (.inl rfl)
    case h_2 =>
      cases read
      exact .utc (.inr rfl)
    case h_3 sign cs _ _ =>
      dsimp only at read
      split at read
      case isTrue plus =>
        rw [Option.bind_eq_bind, Option.bind_some, distance?_eq_some_iff] at read
        obtain ⟨n, distance, rfl⟩ := read
        rw [plus, Int.one_mul]
        exact .ahead distance
      case isFalse =>
        split at read
        case isTrue minus =>
          rw [Option.bind_eq_bind, Option.bind_some, distance?_eq_some_iff] at read
          obtain ⟨n, distance, rfl⟩ := read
          rw [Int.neg_one_mul]
          exact .behind minus distance
        case isFalse => cases read
    case h_4 => cases read
  · intro zone
    cases zone with
    | utc letter => rcases letter with rfl | rfl <;> rfl
    | ahead distance =>
      rw [offset?]
      · rw [if_pos rfl, Option.bind_eq_bind, Option.bind_some, distance?_eq_some_iff]
        exact ⟨_, distance, (Int.one_mul _).symm⟩
      all_goals exact fun letter => absurd letter (by decide)
    | behind sign distance =>
      rw [offset?]
      · rw [if_neg (by rcases sign with rfl | rfl <;> decide), if_pos sign, Option.bind_eq_bind, Option.bind_some,
          distance?_eq_some_iff]
        exact ⟨_, distance, (Int.neg_one_mul _).symm⟩
      all_goals
        intro letter
        rcases sign with rfl | rfl <;> exact absurd letter (by decide)

end Ends

end EpcisDigest.Time
