import EpcisDigest.Proofs.Time.Reading
import Mathlib.Algebra.Order.Floor.Semifield
import Mathlib.Data.Rat.Floor
import Mathlib.Tactic.NormNum

namespace EpcisDigest.Time

/-- A point of time in UTC: the minutes from the start of year 0, the second in this minute, of which number 60 is an
    inserted one, and the part of the second that has passed. -/
structure Moment where
  minutes : Int
  second : Nat
  part : ℚ

namespace Moment

def truncated (moment : Moment) : Moment :=
  { moment with part := ⌊moment.part * 1000⌋ / 1000 }

def InYear (moment : Moment) (year : Int) : Prop :=
  daysBeforeYear year ≤ moment.minutes / 1440 ∧ moment.minutes / 1440 < daysBeforeYear (year + 1)

def HasPlainYear (moment : Moment) : Prop :=
  ∃ year : Int, 0 ≤ year ∧ year ≤ 9999 ∧ moment.InYear year

end Moment

def Shown.moment (shown : Shown) : Moment where
  minutes := shown.date.dayNumber * 1440 + (shown.hour * 60 + shown.minute : Nat) - shown.ahead
  second := shown.second
  part := fractionOf shown.fraction

def Denotes (value : String) (moment : Moment) : Prop :=
  ∃ shown, Written shown (Text.trimChars value.toList) ∧ shown.Valid ∧ moment = shown.moment

section Milliseconds

theorem milliseconds_eq {digits : List Char} (numeric : ∀ c ∈ digits, c.isDigit = true) :
    milliseconds digits = numberOf digits * 1000 / 10 ^ digits.length := by
  have filled : numberOf (digits ++ ['0', '0', '0']) = numberOf digits * 1000 := by
    rw [numberOf_append, show numberOf ['0', '0', '0'] = 0 by decide]
    simp
  have split := List.take_append_drop 3 (digits ++ ['0', '0', '0'])
  have rest : ((digits ++ ['0', '0', '0']).drop 3).length = digits.length := by simp
  have numeric' : ∀ c ∈ (digits ++ ['0', '0', '0']).drop 3, c.isDigit = true := by
    intro c member
    rcases List.mem_append.mp (List.mem_of_mem_drop member) with digit | zero
    · exact numeric c digit
    · simp at zero
      rw [zero]
      decide
  have small := numberOf_lt _ numeric'
  rw [← split, numberOf_append, rest] at filled
  rw [rest] at small
  unfold milliseconds
  rw [← filled, Nat.mul_comm, Nat.mul_add_div (Nat.pow_pos (by decide)), Nat.div_eq_of_lt small, Nat.add_zero]

theorem milliseconds_lt {digits : List Char} (numeric : ∀ c ∈ digits, c.isDigit = true) :
    milliseconds digits < 1000 := by
  rw [milliseconds_eq numeric, Nat.div_lt_iff_lt_mul (Nat.pow_pos (by decide)), Nat.mul_comm]
  exact Nat.mul_lt_mul_of_pos_left (numberOf_lt digits numeric) (by decide)

theorem floor_fractionOf {digits : List Char} (numeric : ∀ c ∈ digits, c.isDigit = true) :
    ⌊fractionOf digits * 1000⌋ = (milliseconds digits : Int) := by
  have quotient : fractionOf digits * 1000 =
      ((numberOf digits * 1000 : Nat) : ℚ) / ((10 ^ digits.length : Nat) : ℚ) := by
    unfold fractionOf
    push_cast
    ring
  rw [milliseconds_eq numeric, quotient, ← Int.natCast_floor_eq_floor (by positivity), Nat.floor_div_eq_div]

theorem Shown.truncated_moment {shown : Shown} (numeric : ∀ c ∈ shown.fraction, c.isDigit = true) :
    shown.moment.truncated = { shown.moment with part := milliseconds shown.fraction / 1000 } := by
  simp only [Moment.truncated, Shown.moment, floor_fractionOf numeric, Int.cast_natCast]

theorem milliseconds_padded {n : Nat} (small : n < 1000) : milliseconds (padded 3 n) = n := by
  have length : (padded 3 n).length = 3 := length_padded (by decide) small
  unfold milliseconds
  rw [List.take_left' length, numberOf_padded]

end Milliseconds

namespace Instant

structure Valid (instant : Instant) : Prop where
  date : instant.date.Valid
  hour : instant.hour ≤ 23
  minute : instant.minute ≤ 59
  second : instant.second ≤ 60
  millisecond : instant.millisecond < 1000

def moment (instant : Instant) : Moment where
  minutes := instant.date.dayNumber * 1440 + (instant.hour * 60 + instant.minute : Nat)
  second := instant.second
  part := instant.millisecond / 1000

variable {instant instant' : Instant}

theorem moment_inj (valid : instant.Valid) (valid' : instant'.Valid) :
    instant.moment = instant'.moment ↔ instant = instant' := by
  constructor
  · intro same
    obtain ⟨date, hour, minute, second, millisecond⟩ := instant
    obtain ⟨date', hour', minute', second', millisecond'⟩ := instant'
    obtain ⟨dateValid, hours, minutes, -, -⟩ := valid
    obtain ⟨dateValid', hours', minutes', -, -⟩ := valid'
    simp only [moment, Moment.mk.injEq] at same hours minutes hours' minutes'
    obtain ⟨sameMinutes, rfl, part⟩ := same
    have days : date.dayNumber = date'.dayNumber := by omega
    obtain rfl := (Date.dayNumber_inj dateValid dateValid').mp days
    obtain rfl : hour = hour' := by omega
    obtain rfl : minute = minute' := by omega
    obtain rfl : millisecond = millisecond' := by
      rw [div_left_inj' (by norm_num)] at part
      exact_mod_cast part
    rfl
  · rintro rfl
    rfl

/-- An offset of less than a day carries into the day before or behind at most. -/
theorem atOffset_spec (valid : instant.Valid) {ahead : Int} (behind : -1440 < ahead) (before : ahead < 1440) :
    (instant.atOffset ahead).Valid ∧
      (instant.atOffset ahead).moment = { instant.moment with minutes := instant.moment.minutes - ahead } := by
  obtain ⟨date, hour, minute, second, millisecond⟩ := instant
  obtain ⟨dateValid, hours, minutes, seconds, milliseconds⟩ := valid
  dsimp only at dateValid hours minutes seconds milliseconds
  have next := Date.dayNumber_next dateValid
  have previous := Date.dayNumber_previous dateValid
  simp only [atOffset, moment, Moment.mk.injEq, and_true]
  split
  case isTrue early =>
    exact ⟨⟨Date.previous_valid dateValid, by dsimp only; omega, by dsimp only; omega, seconds, milliseconds⟩, by omega⟩
  case isFalse =>
    split
    case isTrue late =>
      exact ⟨⟨Date.next_valid dateValid, by dsimp only; omega, by dsimp only; omega, seconds, milliseconds⟩, by omega⟩
    case isFalse => exact ⟨⟨dateValid, by dsimp only; omega, by dsimp only; omega, seconds, milliseconds⟩, by omega⟩

/-- The year of the date is the one in which the moment lies. -/
theorem year_eq_of_inYear (valid : instant.Valid) {year : Int} (inYear : instant.moment.InYear year) :
    instant.date.year = year := by
  have hours := valid.hour
  have minutes := valid.minute
  have day : instant.moment.minutes / 1440 = instant.date.dayNumber := by
    unfold moment
    dsimp only
    omega
  rw [Moment.InYear, day] at inYear
  exact Date.year_eq valid.date inYear.1 inYear.2

end Instant

end EpcisDigest.Time
