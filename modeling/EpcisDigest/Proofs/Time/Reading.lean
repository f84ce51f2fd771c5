import EpcisDigest.Proofs.Time.Written

namespace EpcisDigest.Time

open Text (isBlank)

def Shown.instant (shown : Shown) : Instant :=
  ⟨shown.date, shown.hour, shown.minute, shown.second, milliseconds shown.fraction⟩

def ReadsAs (Form : Shown → List Char → Prop) (cs : List Char) (instant : Instant) : Prop :=
  ∃ shown, Form shown cs ∧ shown.Valid ∧ instant = shown.instant.atOffset shown.ahead

section Forms

variable {cs : List Char} {instant : Instant}

theorem instant?_eq_some_iff {date : Date} {hour minute second millisecond : Nat} :
    instant? date hour minute second millisecond = some instant ↔
      (date.Valid ∧ hour ≤ 23 ∧ minute ≤ 59 ∧ second ≤ 60) ∧ instant = ⟨date, hour, minute, second, millisecond⟩ := by
  unfold instant?
  split
  case isTrue valid => simp [valid, eq_comm]
  case isFalse invalid => simp [invalid]

theorem Zone.stops {ahead : Int} {zone : List Char} (ends : Zone ahead zone) : Stops zone ∧ zone.head? ≠ some '.' := by
  unfold Stops
  cases ends with
  | utc letter => rcases letter with rfl | rfl <;> simp
  | ahead => simp
  | behind sign => rcases sign with rfl | rfl <;> simp

theorem Fraction.stops {digits front rest : List Char} (fraction : Fraction digits front) (stop : Stops rest) :
    Stops (front ++ rest) := by
  cases fraction with
  | none => exact stop
  | point =>
    intro c first
    simp at first
    rw [← first]
    decide

theorem readWithOffset?_eq_some_iff : readWithOffset? cs = some instant ↔ ReadsAs Zoned cs instant := by
  simp only [readWithOffset?, ↓Option.bind_eq_bind, ↓Option.bind_eq_some_iff, Prod.exists, fixedDigits?_eq_some_iff,
    char?_eq_some_iff, dateEnd?_eq_some_iff, offset?_eq_some_iff, instant?_eq_some_iff, Option.pure_def,
    Option.some.injEq]
  constructor
  · rintro ⟨y, _, ⟨year, rfl, yearDigits⟩, _, rfl, mo, _, ⟨month, rfl, monthDigits⟩, _, rfl, d, _, ⟨day, rfl, dayDigits⟩,
      _, ⟨separator, separates, rfl⟩, h, _, ⟨hour, rfl, hourDigits⟩, _, rfl, mi, _, ⟨minute, rfl, minuteDigits⟩, _, rfl,
      s, behind, ⟨second, rfl, secondDigits⟩, ms, zone, fraction, ahead, ends, _, ⟨⟨date, hours, minutes, seconds⟩, rfl⟩,
      rfl⟩
    obtain ⟨digits, front, rfl, written, rfl⟩ := exists_fraction_of_fraction? fraction
    exact ⟨⟨⟨y, mo, d⟩, h, mi, s, digits, ahead⟩, ⟨year, month, day, separator, hour, minute, second, front, zone, rfl,
      ⟨y, rfl, yearDigits⟩, monthDigits, dayDigits, separates, hourDigits, minuteDigits, secondDigits, written, ends⟩,
      ⟨date, hours, minutes, seconds⟩, rfl⟩
  · rintro ⟨shown, ⟨year, month, day, separator, hour, minute, second, front, zone, rfl, ⟨y, same, yearDigits⟩, monthDigits,
      dayDigits, separates, hourDigits, minuteDigits, secondDigits, fraction, ends⟩, ⟨date, hours, minutes, seconds⟩, rfl⟩
    have read := fraction?_fraction fraction ends.stops.1 ends.stops.2
    refine ⟨y, _, ⟨year, rfl, yearDigits⟩, _, rfl, _, _, ⟨month, rfl, monthDigits⟩, _, rfl, _, _, ⟨day, rfl, dayDigits⟩,
      _, ⟨separator, separates, rfl⟩, _, _, ⟨hour, rfl, hourDigits⟩, _, rfl, _, _, ⟨minute, rfl, minuteDigits⟩, _, rfl,
      _, _, ⟨second, rfl, secondDigits⟩, _, _, read, _, ends, _, ⟨⟨?_, hours, minutes, seconds⟩, rfl⟩, ?_⟩
    · rw [← same]
      exact date
    · rw [← same]
      rfl

theorem stops_cons {c : Char} {rest : List Char} (other : c.isDigit = false) : Stops (c :: rest) := by
  simpa [Stops] using other

theorem atOffset_zero {shown : Instant} (hour : shown.hour ≤ 23) (minute : shown.minute ≤ 59) :
    shown.atOffset 0 = shown := by
  obtain ⟨date, h, m, s, ms⟩ := shown
  dsimp only at hour minute
  have early : ¬ ((h * 60 + m : Nat) : Int) - 0 < 0 := by omega
  have late : ¬ (1440 : Int) ≤ ((h * 60 + m : Nat) : Int) - 0 := by omega
  simp only [Instant.atOffset, early, late, if_false, Instant.mk.injEq, true_and, and_true]
  omega

theorem exists_zoneless_of_readLocal? (read : readLocal? cs = some instant) : ReadsAs Zoneless cs instant := by
  simp only [readLocal?, ↓Option.bind_eq_bind, ↓Option.bind_eq_some_iff, Prod.exists, char?_eq_some_iff] at read
  obtain ⟨y, _, yearRead, _, rfl, mo, _, monthRead, _, rfl, d, _, dayRead, _, rfl, h, _, hourRead, _, rfl, mi, _, minuteRead,
    _, rfl, s, _, secondRead, ms, zone, fraction, valid⟩ := read
  split at valid
  case isFalse => cases valid
  case isTrue bounds =>
    obtain ⟨rfl, inRange⟩ := bounds
    obtain ⟨⟨date, hours, minutes, seconds⟩, rfl⟩ := instant?_eq_some_iff.mp valid
    obtain ⟨year, rfl, yearForm⟩ := exists_looseYear_of_year? yearRead inRange
    obtain ⟨month, rfl, monthForm⟩ := exists_short_of_someDigits? monthRead
    obtain ⟨day, rfl, dayForm⟩ := exists_short_of_someDigits? dayRead
    obtain ⟨hour, rfl, hourForm⟩ := exists_short_of_someDigits? hourRead
    obtain ⟨minute, rfl, minuteForm⟩ := exists_short_of_someDigits? minuteRead
    obtain ⟨second, rfl, secondForm⟩ := exists_short_of_someDigits? secondRead
    obtain ⟨digits, front, rfl, fractionForm, rfl⟩ := exists_fraction_of_fraction? fraction
    refine ⟨⟨⟨y, mo, d⟩, h, mi, s, digits, 0⟩, ⟨?_, inRange⟩, ⟨date, hours, minutes, seconds⟩, ?_⟩
    · exact ⟨year, month, day, 'T', hour, minute, second, front, [], rfl, yearForm, monthForm, dayForm, by simp, hourForm,
        minuteForm, secondForm, fractionForm, rfl, rfl⟩
    · exact (atOffset_zero hours minutes).symm

theorem readLocal?_of_zoneless (reads : ReadsAs Zoneless cs instant) : readLocal? cs = some instant := by
  obtain ⟨shown, ⟨⟨year, month, day, separator, hour, minute, second, front, zone, rfl, yearForm, monthForm, dayForm, separates,
    hourForm, minuteForm, secondForm, fractionForm, utc, rfl⟩, inRange⟩, ⟨date, hours, minutes, seconds⟩, rfl⟩ := reads
  obtain rfl : separator = 'T' := by simpa using separates
  have nothing : Stops [] := by simp [Stops]
  have point : ∀ c : Char, c ∈ ['-', ':', 'T'] → ∀ rest, Stops (c :: rest) := by
    intro c member rest
    simp at member
    rcases member with rfl | rfl | rfl <;> exact stops_cons (by decide)
  simp only [readLocal?, Option.bind_eq_bind, char?, year?_looseYear yearForm inRange (point '-' (by simp) _),
    someDigits?_short monthForm (point '-' (by simp) _), someDigits?_short dayForm (point 'T' (by simp) _),
    someDigits?_short hourForm (point ':' (by simp) _), someDigits?_short minuteForm (point ':' (by simp) _),
    someDigits?_short secondForm (fractionForm.stops nothing), fraction?_fraction fractionForm nothing (by simp),
    Option.bind_some, if_true, true_and, if_pos inRange]
  rw [instant?_eq_some_iff, utc, atOffset_zero hours minutes]
  exact ⟨⟨date, hours, minutes, seconds⟩, rfl⟩

theorem readLocal?_eq_some_iff : readLocal? cs = some instant ↔ ReadsAs Zoneless cs instant :=
  ⟨exists_zoneless_of_readLocal?, readLocal?_of_zoneless⟩

end Forms

section Marks

variable {cs : List Char}

/-- Colons and the letters of UTC. A timestamp with an offset has three of them, one without an offset has two. -/
def isMark (c : Char) : Bool := c == ':' || c == 'Z' || c == 'z'

theorem marks_eq_zero (plain : ∀ c ∈ cs, c.isDigit = true ∨ isBlank c = true) : cs.countP isMark = 0 := by
  rw [List.countP_eq_zero]
  intro c member marked
  simp only [isMark, Bool.or_eq_true, beq_iff_eq] at marked
  rcases marked with (rfl | rfl) | rfl <;> exact absurd (plain _ member) (by decide)

theorem Fixed.marks {count n : Nat} (fixed : Fixed count n cs) : cs.countP isMark = 0 :=
  marks_eq_zero fun c member => .inl (fixed.2.1 c member)

theorem Short.marks {count n : Nat} (short : Short count n cs) : cs.countP isMark = 0 := by
  obtain ⟨blanks, digits, rfl, blank, numeral, -, -⟩ := short
  apply marks_eq_zero
  intro c member
  exact (List.mem_append.mp member).elim (.inr ∘ blank c) (.inl ∘ numeral.2 c)

theorem LooseYear.marks {year : Int} (loose : LooseYear year cs) : cs.countP isMark = 0 := by
  cases loose with
  | short short => exact short.marks
  | later blank numeral | earlier blank numeral =>
    have front := marks_eq_zero fun c member => .inr (blank c member)
    have back := marks_eq_zero fun c member => .inl (numeral.2 c member)
    rw [List.countP_append, List.countP_cons, front, back]
    rfl

theorem Fraction.marks {digits : List Char} (fraction : Fraction digits cs) : cs.countP isMark = 0 := by
  cases fraction with
  | none => rfl
  | point numeral =>
    rw [List.countP_cons, marks_eq_zero fun c member => .inl (numeral.2 c member)]
    rfl

theorem Zone.marks {ahead : Int} (zone : Zone ahead cs) : cs.countP isMark = 1 := by
  have distance : ∀ {n cs}, Distance n cs → cs.countP isMark = 1 := by
    rintro _ _ ⟨_, _, hour, minute, rfl, hourDigits, minuteDigits, -⟩
    rw [List.countP_append, List.countP_cons, hourDigits.marks, minuteDigits.marks]
    rfl
  cases zone with
  | utc letter => rcases letter with rfl | rfl <;> rfl
  | ahead clock =>
    rw [List.countP_cons, distance clock]
    rfl
  | behind sign clock =>
    rw [List.countP_cons, distance clock]
    rcases sign with rfl | rfl <;> rfl

theorem Lays.marks {Year : Int → List Char → Prop} {Number : Nat → List Char → Prop} {separators : List Char}
    {End : Int → List Char → Prop} {shown : Shown} (years : ∀ {year cs}, Year year cs → cs.countP isMark = 0)
    (numbers : ∀ {n cs}, Number n cs → cs.countP isMark = 0) (unmarked : ∀ c ∈ separators, isMark c = false)
    (lays : Lays Year Number separators End shown cs) :
    ∃ zone, End shown.ahead zone ∧ cs.countP isMark = zone.countP isMark + 2 := by
  obtain ⟨year, month, day, separator, hour, minute, second, front, zone, rfl, yearForm, monthForm, dayForm, separates,
    hourForm, minuteForm, secondForm, fractionForm, ends⟩ := lays
  refine ⟨zone, ends, ?_⟩
  simp only [List.countP_append, List.countP_cons, years yearForm, numbers monthForm, numbers dayForm, numbers hourForm,
    numbers minuteForm, numbers secondForm, fractionForm.marks, unmarked separator separates]
  have hyphen : isMark '-' = false := by decide
  have colon : isMark ':' = true := by decide
  simp [hyphen, colon]

theorem Zoned.marks {shown : Shown} (zoned : Zoned shown cs) : cs.countP isMark = 3 := by
  obtain ⟨zone, ends, count⟩ := Lays.marks (fun ⟨_, _, digits⟩ => Fixed.marks digits) Fixed.marks (by simp [isMark]) zoned
  rw [count, ends.marks]

theorem Zoneless.marks {shown : Shown} (zoneless : Zoneless shown cs) : cs.countP isMark = 2 := by
  obtain ⟨zone, ⟨-, rfl⟩, count⟩ := Lays.marks LooseYear.marks Short.marks (by simp [isMark]) zoneless.1
  exact count

end Marks

/-- A timestamp is read exactly if it is written in one of the two forms, and as what it shows. -/
theorem read?_eq_some_iff {value : String} {instant : Instant} :
    Instant.read? value = some instant ↔ ReadsAs Written (Text.trimChars value.toList) instant := by
  have read : Instant.read? value = some instant ↔ readWithOffset? (Text.trimChars value.toList) = some instant ∨
      readWithOffset? (Text.trimChars value.toList) = none ∧ readLocal? (Text.trimChars value.toList) = some instant := by
    simp only [Instant.read?, Option.orElse_eq_orElse, Option.orElse_eq_or, Option.or_eq_some_iff]
  generalize Text.trimChars value.toList = cs at read ⊢
  rw [read, readWithOffset?_eq_some_iff, readLocal?_eq_some_iff]
  constructor
  · rintro (⟨shown, zoned, valid, rfl⟩ | ⟨-, shown, zoneless, valid, rfl⟩)
    · exact ⟨shown, .inl zoned, valid, rfl⟩
    · exact ⟨shown, .inr zoneless, valid, rfl⟩
  · rintro ⟨shown, zoned | zoneless, valid, rfl⟩
    · exact .inl ⟨shown, zoned, valid, rfl⟩
    · refine .inr ⟨?_, shown, zoneless, valid, rfl⟩
      rw [Option.eq_none_iff_forall_ne_some]
      intro other found
      -- the marks of the two forms differ in number
      obtain ⟨shown', zoned, -⟩ := readWithOffset?_eq_some_iff.mp found
      have three := zoned.marks
      have two := zoneless.marks
      omega

end EpcisDigest.Time
