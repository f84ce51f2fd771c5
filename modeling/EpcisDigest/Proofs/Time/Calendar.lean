import EpcisDigest.Time.Instant

namespace EpcisDigest.Time

def daysBeforeYear (year : Int) : Int :=
  365 * year + (year + 3) / 4 - (year + 99) / 100 + (year + 399) / 400

def daysBeforeMonth (year : Int) : Nat → Nat
  | 0 => 0
  | 1 => 0
  | month + 2 => daysBeforeMonth year (month + 1) + daysInMonth year (month + 1)

section Year

variable {year year' : Int}

theorem daysBeforeMonth_succ (year : Int) {month : Nat} (positive : 1 ≤ month) :
    daysBeforeMonth year (month + 1) = daysBeforeMonth year month + daysInMonth year month := by
  obtain ⟨earlier, rfl⟩ : ∃ earlier, month = earlier + 1 := ⟨month - 1, by omega⟩
  rfl

theorem daysBeforeMonth_le (year : Int) {month month' : Nat} (positive : 1 ≤ month) (later : month ≤ month') :
    daysBeforeMonth year month ≤ daysBeforeMonth year month' := by
  induction later with
  | refl => exact Nat.le_refl _
  | @step last later ih =>
    have next := daysBeforeMonth_succ year (Nat.le_trans positive later)
    show daysBeforeMonth year month ≤ daysBeforeMonth year (last + 1)
    omega

theorem daysBeforeMonth_end (year : Int) : daysBeforeMonth year 13 = if isLeapYear year then 366 else 365 := by
  cases leap : isLeapYear year <;> simp [daysBeforeMonth, daysInMonth, leap]

/-- A year has as many days as its twelve months. -/
theorem daysBeforeYear_succ (year : Int) :
    daysBeforeYear (year + 1) = daysBeforeYear year + daysBeforeMonth year 13 := by
  rw [daysBeforeMonth_end]
  unfold daysBeforeYear isLeapYear
  simp only [Bool.and_eq_true, Bool.or_eq_true, beq_iff_eq, bne_iff_ne]
  split <;> omega

theorem daysBeforeYear_le (later : year ≤ year') : daysBeforeYear year ≤ daysBeforeYear year' := by
  unfold daysBeforeYear
  omega

theorem daysInMonth_pos (year : Int) (month : Nat) : 28 ≤ daysInMonth year month ∧ daysInMonth year month ≤ 31 := by
  unfold daysInMonth
  split
  · split <;> omega
  · split <;> omega

end Year

namespace Date

variable {date date' : Date}

/-- The days from the first one of year 0 to a date. -/
def dayNumber (date : Date) : Int :=
  daysBeforeYear date.year + (daysBeforeMonth date.year date.month + date.day : Nat) - 1

theorem dayOfYear_le (valid : date.Valid) :
    daysBeforeMonth date.year date.month + date.day ≤ daysBeforeMonth date.year 13 := by
  obtain ⟨fromOne, months, -, days⟩ := valid
  have month := daysBeforeMonth_succ date.year fromOne
  have others := daysBeforeMonth_le date.year (show 1 ≤ date.month + 1 by omega) (show date.month + 1 ≤ 13 by omega)
  omega

theorem dayNumber_bounds (valid : date.Valid) :
    daysBeforeYear date.year ≤ date.dayNumber ∧ date.dayNumber < daysBeforeYear (date.year + 1) := by
  have day := dayOfYear_le valid
  have positive := valid.2.2.1
  rw [daysBeforeYear_succ]
  unfold dayNumber
  omega

theorem year_eq (valid : date.Valid) {year : Int} (from_ : daysBeforeYear year ≤ date.dayNumber)
    (before : date.dayNumber < daysBeforeYear (year + 1)) : date.year = year := by
  have bounds := dayNumber_bounds valid
  rcases Int.lt_trichotomy date.year year with earlier | same | later
  · have := daysBeforeYear_le (show date.year + 1 ≤ year by omega)
    omega
  · exact same
  · have := daysBeforeYear_le (show year + 1 ≤ date.year by omega)
    omega

theorem dayNumber_inj (valid : date.Valid) (valid' : date'.Valid) :
    date.dayNumber = date'.dayNumber ↔ date = date' := by
  constructor
  · intro same
    have bounds := dayNumber_bounds valid'
    rw [← same] at bounds
    have years : date.year = date'.year := year_eq valid bounds.1 bounds.2
    obtain ⟨year, month, day⟩ := date
    obtain ⟨year', month', day'⟩ := date'
    obtain rfl : year = year' := years
    obtain ⟨fromOne, months, fromFirst, days⟩ := valid
    obtain ⟨fromOne', months', fromFirst', days'⟩ := valid'
    simp only [dayNumber] at same fromOne months fromFirst days fromOne' months' fromFirst' days'
    have ends := daysBeforeMonth_succ year fromOne
    have ends' := daysBeforeMonth_succ year fromOne'
    rcases Nat.lt_trichotomy month month' with earlier | rfl | later
    · have := daysBeforeMonth_le year (show 1 ≤ month + 1 by omega) earlier
      omega
    · obtain rfl : day = day' := by omega
      rfl
    · have := daysBeforeMonth_le year (show 1 ≤ month' + 1 by omega) later
      omega
  · rintro rfl
    rfl

theorem next_valid (valid : date.Valid) : date.next.Valid := by
  obtain ⟨fromOne, months, fromFirst, days⟩ := valid
  unfold next
  split
  case isTrue => exact ⟨fromOne, months, by simp, by simpa using by omega⟩
  case isFalse =>
    split
    case isTrue =>
      have first := daysInMonth_pos date.year (date.month + 1)
      exact ⟨by simp, by simpa using by omega, by simp, by simpa using by omega⟩
    case isFalse => exact ⟨by simp, by simp, by simp, by simp [daysInMonth]⟩

theorem dayNumber_next (valid : date.Valid) : date.next.dayNumber = date.dayNumber + 1 := by
  obtain ⟨year, month, day⟩ := date
  obtain ⟨fromOne, months, fromFirst, days⟩ := valid
  dsimp only at fromOne months fromFirst days
  have ends := daysBeforeMonth_succ year fromOne
  unfold next
  split
  case isTrue =>
    simp only [dayNumber]
    omega
  case isFalse within =>
    dsimp only at within
    split
    case isTrue =>
      simp only [dayNumber, ends]
      omega
    case isFalse full =>
      dsimp only at full
      obtain rfl : month = 12 := by omega
      simp only [dayNumber, daysBeforeYear_succ, ends, show daysBeforeMonth (year + 1) 1 = 0 from rfl]
      omega

theorem previous_valid (valid : date.Valid) : date.previous.Valid := by
  obtain ⟨fromOne, months, fromFirst, days⟩ := valid
  unfold previous
  split
  case isTrue => exact ⟨fromOne, months, by simpa using by omega, by simpa using by omega⟩
  case isFalse =>
    split
    case isTrue =>
      have length := daysInMonth_pos date.year (date.month - 1)
      exact ⟨by simpa using by omega, by simpa using by omega, by simpa using by omega, by simp⟩
    case isFalse => exact ⟨by simp, by simp, by simp, by simp [daysInMonth]⟩

theorem next_previous (valid : date.Valid) : date.previous.next = date := by
  obtain ⟨year, month, day⟩ := date
  obtain ⟨fromOne, months, fromFirst, days⟩ := valid
  dsimp only at fromOne months fromFirst days
  unfold previous
  dsimp only
  split
  case isTrue =>
    rw [next, if_pos (by dsimp only; omega)]
    simp only [mk.injEq, true_and]
    omega
  case isFalse =>
    obtain rfl : day = 1 := by omega
    split
    case isTrue =>
      rw [next, if_neg (by simp), if_pos (by dsimp only; omega)]
      simp only [mk.injEq, and_true, true_and]
      omega
    case isFalse =>
      obtain rfl : month = 1 := by omega
      rw [next, if_neg (by simp [daysInMonth]), if_neg (by simp)]
      simp only [mk.injEq, and_true]
      omega

theorem dayNumber_previous (valid : date.Valid) : date.previous.dayNumber = date.dayNumber - 1 := by
  have after := dayNumber_next (previous_valid valid)
  rw [next_previous valid] at after
  omega

end Date

end EpcisDigest.Time
