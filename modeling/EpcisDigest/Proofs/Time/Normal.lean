import EpcisDigest.Proofs.Time.Moment

namespace EpcisDigest.Time

/-- The form `YYYY-MM-DDTHH:MM:SS.mmmZ`. -/
def Normal (shown : Shown) (cs : List Char) : Prop :=
  Lays FourDigits (Fixed 2) ['T'] (fun ahead zone => ahead = 0 ∧ zone = ['Z']) shown cs ∧ shown.fraction.length = 3

section Reading

variable {shown : Shown} {cs : List Char}

theorem Normal.zoned (normal : Normal shown cs) : Zoned shown cs := by
  obtain ⟨⟨year, month, day, separator, hour, minute, second, front, zone, rfl, yearForm, monthForm, dayForm, separates,
    hourForm, minuteForm, secondForm, fractionForm, utc, rfl⟩, -⟩ := normal
  refine ⟨year, month, day, separator, hour, minute, second, front, ['Z'], rfl, yearForm, monthForm, dayForm, ?_, hourForm,
    minuteForm, secondForm, fractionForm, ?_⟩
  · rw [List.mem_singleton] at separates
    simp [separates]
  · rw [utc]
    exact .utc (.inl rfl)

theorem Zone.bounds {ahead : Int} (zone : Zone ahead cs) : -1440 < ahead ∧ ahead < 1440 := by
  cases zone with
  | utc => omega
  | ahead distance | behind _ distance =>
    obtain ⟨hours, minutes, -, -, -, -, -, hours_le, minutes_le, rfl⟩ := distance
    omega

theorem Fraction.numeric {digits : List Char} (fraction : Fraction digits cs) : ∀ c ∈ digits, c.isDigit = true := by
  cases fraction with
  | none => simp
  | point numeral => exact numeral.2

theorem Written.bounds (written : Written shown cs) : (-1440 < shown.ahead ∧ shown.ahead < 1440) ∧
    ∀ c ∈ shown.fraction, c.isDigit = true := by
  rcases written with ⟨_, _, _, _, _, _, _, _, _, -, -, -, -, -, -, -, -, fraction, zone⟩ |
    ⟨⟨_, _, _, _, _, _, _, _, _, -, -, -, -, -, -, -, -, fraction, utc, -⟩, -⟩
  · exact ⟨zone.bounds, fraction.numeric⟩
  · rw [utc]
    exact ⟨by decide, fraction.numeric⟩

/-- What is read of a timestamp is the moment that it shows, cut to the millisecond. -/
theorem Written.moment (written : Written shown cs) (valid : shown.Valid) :
    (shown.instant.atOffset shown.ahead).Valid ∧
      (shown.instant.atOffset shown.ahead).moment = shown.moment.truncated := by
  obtain ⟨⟨behind, before⟩, numeric⟩ := written.bounds
  have shownValid : shown.instant.Valid :=
    ⟨valid.date, valid.hour, valid.minute, valid.second, milliseconds_lt numeric⟩
  obtain ⟨read, moment⟩ := Instant.atOffset_spec shownValid behind before
  refine ⟨read, ?_⟩
  rw [moment, Shown.truncated_moment numeric]
  rfl

end Reading

section Writing

variable {instant : Instant}

theorem fixed_padded {width n : Nat} (positive : 0 < width) (small : n < 10 ^ width) : Fixed width n (padded width n) :=
  ⟨length_padded positive small, fun _ => isDigit_of_mem_padded, numberOf_padded width n⟩

theorem normal_toChars (valid : instant.Valid) (fromZero : 0 ≤ instant.date.year) (plain : instant.date.year ≤ 9999) :
    Normal ⟨instant.date, instant.hour, instant.minute, instant.second, padded 3 instant.millisecond, 0⟩
      instant.toChars := by
  obtain ⟨date, hours, minutes, seconds, milliseconds⟩ := valid
  obtain ⟨-, months, -, days⟩ := date
  have days' := (daysInMonth_pos instant.date.year instant.date.month).2
  have length : (padded 3 instant.millisecond).length = 3 := length_padded (by decide) milliseconds
  have numeral : IsNumeral (padded 3 instant.millisecond) :=
    ⟨List.ne_nil_of_length_pos (by omega), fun _ => isDigit_of_mem_padded⟩
  have two : ∀ n < 100, Fixed 2 n (padded 2 n) := fun n small => fixed_padded (by decide) small
  have year : FourDigits instant.date.year (padded 4 instant.date.year.toNat) :=
    ⟨_, (Int.toNat_of_nonneg fromZero).symm, fixed_padded (by decide) (by omega)⟩
  have month := two instant.date.month (by omega)
  have day := two instant.date.day (by omega)
  have hour := two instant.hour (by omega)
  have minute := two instant.minute (by omega)
  have second := two instant.second (by omega)
  refine ⟨⟨_, _, _, 'T', _, _, _, '.' :: padded 3 instant.millisecond, ['Z'], ?_, year, month, day, by simp, hour, minute,
    second, .point numeral, rfl, rfl⟩, length⟩
  simp only [Instant.toChars, yearText, if_pos (And.intro fromZero plain), List.append_assoc, List.cons_append]

theorem trimChars_eq_self {first last : Char} (cs : List Char) (front : Text.isBlank first = false)
    (back : Text.isBlank last = false) : Text.trimChars (first :: cs ++ [last]) = first :: cs ++ [last] := by
  simp [Text.trimChars, front, back]

theorem Normal.trimmed {shown : Shown} {cs : List Char} (normal : Normal shown cs) : Text.trimChars cs = cs := by
  obtain ⟨⟨year, month, day, separator, hour, minute, second, front, zone, rfl, ⟨n, -, length, digits, -⟩, -, -, -, -, -, -,
    -, -, rfl⟩, -⟩ := normal
  obtain ⟨c, others, rfl⟩ := List.exists_cons_of_length_pos (length ▸ (by decide : 0 < 4) : 0 < year.length)
  have notBlank := isBlank_eq_false_of_isDigit (digits c List.mem_cons_self)
  have ends := trimChars_eq_self
    (others ++ '-' :: (month ++ '-' :: (day ++ separator :: (hour ++ ':' :: (minute ++ ':' :: (second ++ front))))))
    notBlank (show Text.isBlank 'Z' = false by decide)
  simpa only [List.append_assoc, List.cons_append] using ends

theorem read?_text (valid : instant.Valid) (fromZero : 0 ≤ instant.date.year) (plain : instant.date.year ≤ 9999) :
    Instant.read? instant.text = some instant := by
  have normal := normal_toChars valid fromZero plain
  rw [read?_eq_some_iff, Instant.text, String.toList_ofList, normal.trimmed]
  refine ⟨_, .inl normal.zoned, ⟨valid.date, valid.hour, valid.minute, valid.second⟩, ?_⟩
  simp only [Shown.instant, milliseconds_padded valid.millisecond]
  exact (atOffset_zero valid.hour valid.minute).symm

end Writing

section Canonical

variable {instant : Instant} {field value text : String} {moment : Moment}

/-- The text of an instant is the normal form of its moment. -/
theorem exists_normal_of_text (valid : instant.Valid) (fromZero : 0 ≤ instant.date.year)
    (plain : instant.date.year ≤ 9999) :
    ∃ shown, Normal shown instant.text.toList ∧ shown.Valid ∧ shown.moment = instant.moment := by
  have normal := normal_toChars valid fromZero plain
  have width : (padded 3 instant.millisecond).length = 3 := length_padded (by decide) valid.millisecond
  rw [Instant.text, String.toList_ofList]
  refine ⟨_, normal, ⟨valid.date, valid.hour, valid.minute, valid.second⟩, ?_⟩
  have thousand : (10 : ℚ) ^ 3 = 1000 := by norm_num
  simp [Shown.moment, Instant.moment, fractionOf, numberOf_padded, width, thousand]

theorem instantText_eq_ok_iff :
    instantText field value = .ok text ↔ ∃ instant, Instant.read? value = some instant ∧ text = instant.text := by
  unfold instantText
  split
  case h_1 instant read => simp [read, eq_comm]
  case h_2 unread => simp [unread]

theorem exists_instant (denotes : Denotes value moment) :
    ∃ instant, Instant.read? value = some instant ∧ instant.Valid ∧ instant.moment = moment.truncated := by
  obtain ⟨shown, written, valid, rfl⟩ := denotes
  obtain ⟨read, same⟩ := written.moment valid
  exact ⟨_, read?_eq_some_iff.mpr ⟨shown, written, valid, rfl⟩, read, same⟩

theorem exists_denotes_of_read? (read : Instant.read? value = some instant) : ∃ moment, Denotes value moment := by
  obtain ⟨shown, written, valid, -⟩ := read?_eq_some_iff.mp read
  exact ⟨_, shown, written, valid, rfl⟩

/-- The instant read of a timestamp is one that has a normal form, if its year is plain. -/
theorem plainYear_of_moment (valid : instant.Valid) (same : instant.moment = moment.truncated)
    (plain : moment.HasPlainYear) :
    0 ≤ instant.date.year ∧ instant.date.year ≤ 9999 := by
  obtain ⟨year, fromZero, four, inYear⟩ := plain
  have inYear' : instant.moment.InYear year := by
    rw [same]
    exact inYear
  rw [Instant.year_eq_of_inYear valid inYear']
  exact ⟨fromZero, four⟩

/-- Timestamps are accepted if they denote a moment. All that denote one moment, to the millisecond, have one text, which
    is a normal form of this moment and its own text. -/
theorem instantText_canonical (value : String) :
    (∀ field, (∃ text, instantText field value = .ok text) ↔ ∃ moment, Denotes value moment) ∧
      ∀ moment, Denotes value moment → moment.HasPlainYear →
        ∃ text, (∀ field, instantText field value = .ok text) ∧
          (∃ shown, Normal shown text.toList ∧ shown.Valid ∧ shown.moment = moment.truncated) ∧
          (∀ field, instantText field text = .ok text) ∧
          ∀ other moment', Denotes other moment' → moment'.HasPlainYear →
            ∀ field, instantText field other = .ok text ↔ moment'.truncated = moment.truncated := by
  constructor
  · intro field
    constructor
    · rintro ⟨text, written⟩
      obtain ⟨instant, read, -⟩ := instantText_eq_ok_iff.mp written
      exact exists_denotes_of_read? read
    · rintro ⟨moment, denotes⟩
      obtain ⟨instant, read, -⟩ := exists_instant denotes
      exact ⟨_, instantText_eq_ok_iff.mpr ⟨instant, read, rfl⟩⟩
  · intro moment denotes plain
    obtain ⟨instant, read, valid, same⟩ := exists_instant denotes
    obtain ⟨fromZero, four⟩ := plainYear_of_moment valid same plain
    have reread : Instant.read? instant.text = some instant := read?_text valid fromZero four
    refine ⟨instant.text, fun _ => instantText_eq_ok_iff.mpr ⟨instant, read, rfl⟩, ?_,
      fun _ => instantText_eq_ok_iff.mpr ⟨instant, reread, rfl⟩, ?_⟩
    · rw [← same]
      exact exists_normal_of_text valid fromZero four
    · intro other moment' denotes' plain' field
      obtain ⟨instant', read', valid', same'⟩ := exists_instant denotes'
      obtain ⟨fromZero', four'⟩ := plainYear_of_moment valid' same' plain'
      rw [← same, ← same', Instant.moment_inj valid' valid, instantText_eq_ok_iff]
      simp only [read', Option.some.injEq, exists_eq_left']
      constructor
      · intro texts
        rw [texts, read?_text valid' fromZero' four'] at reread
        exact Option.some.inj reread
      · rintro rfl
        rfl

/-- An inserted second at the end of an hour, on two clocks and in both forms, and the second behind it. -/
theorem instantText_canonical_inserted :
    ∃ text, (∀ field, instantText field "2021-12-31T23:29:60.1234-01:30" = .ok text) ∧
      (∀ field, instantText field text = .ok text) ∧
      (∀ field, instantText field " 2022-1-1T0:59:60.12399 " = .ok text) ∧
      ∀ field, instantText field "2022-01-01T01:00:00.123Z" ≠ .ok text := by
  let behind : Shown := ⟨⟨2021, 12, 31⟩, 23, 29, 60, ['1', '2', '3', '4'], -90⟩
  let short : Shown := ⟨⟨2022, 1, 1⟩, 0, 59, 60, ['1', '2', '3', '9', '9'], 0⟩
  let after : Shown := ⟨⟨2022, 1, 1⟩, 1, 0, 0, ['1', '2', '3'], 0⟩
  have year : ∀ shown ∈ [behind, short, after], shown.moment.HasPlainYear := by
    intro shown member
    refine ⟨2022, by decide, by decide, ?_⟩
    simp only [List.mem_cons, List.not_mem_nil, or_false] at member
    rcases member with rfl | rfl | rfl <;> exact ⟨by decide +kernel, by decide +kernel⟩
  have first : Denotes "2021-12-31T23:29:60.1234-01:30" behind.moment := by
    refine ⟨behind, .inl ⟨['2', '0', '2', '1'], ['1', '2'], ['3', '1'], 'T', ['2', '3'], ['2', '9'], ['6', '0'],
      ['.', '1', '2', '3', '4'], ['-', '0', '1', ':', '3', '0'], by decide +kernel, ⟨2021, rfl, by decide⟩, by decide,
      by decide, by decide, by decide, by decide, by decide, .point (by decide),
      .behind (.inl rfl) ⟨1, 30, ['0', '1'], ['3', '0'], rfl, by decide⟩⟩,
      ⟨by decide, by decide, by decide, by decide⟩, rfl⟩
  have second : Denotes " 2022-1-1T0:59:60.12399 " short.moment := by
    have one : Short 2 1 ['1'] := ⟨[], ['1'], rfl, by simp, by decide, by decide, rfl⟩
    refine ⟨short, .inr ⟨⟨['2', '0', '2', '2'], ['1'], ['1'], 'T', ['0'], ['5', '9'], ['6', '0'],
      ['.', '1', '2', '3', '9', '9'], [], by decide +kernel,
      .short ⟨[], ['2', '0', '2', '2'], rfl, by simp, by decide, by decide, rfl⟩, one, one, by decide,
      ⟨[], ['0'], rfl, by simp, by decide, by decide, rfl⟩, ⟨[], ['5', '9'], rfl, by simp, by decide, by decide, rfl⟩,
      ⟨[], ['6', '0'], rfl, by simp, by decide, by decide, rfl⟩, .point (by decide), rfl, rfl⟩, by decide⟩,
      ⟨by decide, by decide, by decide, by decide⟩, rfl⟩
  have third : Denotes "2022-01-01T01:00:00.123Z" after.moment := by
    refine ⟨after, .inl ⟨['2', '0', '2', '2'], ['0', '1'], ['0', '1'], 'T', ['0', '1'], ['0', '0'], ['0', '0'],
      ['.', '1', '2', '3'], ['Z'], by decide +kernel, ⟨2022, rfl, by decide⟩, by decide, by decide, by decide,
      by decide, by decide, by decide, .point (by decide), .utc (.inl rfl)⟩,
      ⟨by decide, by decide, by decide, by decide⟩, rfl⟩
  obtain ⟨-, canonical⟩ := instantText_canonical "2021-12-31T23:29:60.1234-01:30"
  obtain ⟨text, written, -, again, same⟩ := canonical _ first (year behind (by simp))
  refine ⟨text, written, again, ?_, ?_⟩
  · intro field
    have digits : IsNumeral short.fraction := by decide
    have digits' : IsNumeral behind.fraction := by decide
    rw [same _ _ second (year short (by simp)), Shown.truncated_moment digits.2, Shown.truncated_moment digits'.2,
      show milliseconds short.fraction = milliseconds behind.fraction by decide, Moment.mk.injEq]
    exact ⟨by decide +kernel, rfl, rfl⟩
  · intro field
    rw [Ne, same _ _ third (year after (by simp))]
    intro truncated
    exact absurd (congrArg Moment.second truncated) (by decide)

end Canonical

end EpcisDigest.Time
