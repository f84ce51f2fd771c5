import EpcisDigest.Proofs.Json.Reading

namespace EpcisDigest.Json

def count? (depth : Nat) (b : UInt8) : Option Nat :=
  if b = 0x7B ∨ b = 0x5B then some (depth + 1)
  else if b = 0x7D ∨ b = 0x5D then if depth = 0 then none else some (depth - 1)
  else some depth

/-- Measures a value with a counter that is lowered before it is compared, and that gives up when there
    is nothing to lower. -/
def countedFrom? (limit : Nat) (measuring : Measuring) (length : Nat) : List UInt8 → Option Extent
  | [] => some (.unfinished length)
  | b :: rest =>
    match measuring with
    | .literal =>
      if endsLiteral b then some (.complete length)
      else if limit < length + 1 then some (.tooLong (length + 1))
      else countedFrom? limit .literal (length + 1) rest
    | .string depth =>
      if b = 0x5C then countedFrom? limit (.escape depth) (length + 1) rest
      else if b = 0x22 ∧ depth = 0 then some (.complete (length + 1))
      else if limit < length + 1 then some (.tooLong (length + 1))
      else countedFrom? limit (if b = 0x22 then .container depth else .string depth) (length + 1) rest
    | .escape depth =>
      if limit < length + 1 then some (.tooLong (length + 1))
      else countedFrom? limit (.string depth) (length + 1) rest
    | .container depth =>
      if b = 0x22 then countedFrom? limit (.string depth) (length + 1) rest
      else
        match count? depth b with
        | none => none
        | some depth =>
          if (b = 0x7D ∨ b = 0x5D) ∧ depth = 0 then some (.complete (length + 1))
          else if limit < length + 1 then some (.tooLong (length + 1))
          else countedFrom? limit (.container depth) (length + 1) rest

def counted? (limit : Nat) : List UInt8 → Option Extent
  | [] => some (.unfinished 0)
  | b :: rest =>
    if b = 0x22 then countedFrom? limit (.string 0) 1 rest
    else if b = 0x7B ∨ b = 0x5B then countedFrom? limit (.container 0) 0 (b :: rest)
    else countedFrom? limit .literal 0 (b :: rest)

theorem not_closes_of_opens {b : UInt8} (opens : b = 0x7B ∨ b = 0x5B) : ¬ (b = 0x7D ∨ b = 0x5D) := by
  rcases opens with rfl | rfl <;> decide

theorem count?_opening {depth : Nat} {b : UInt8} (opens : b = 0x7B ∨ b = 0x5B) :
    count? depth b = some (depth + 1) := by
  simp only [count?, opens, ite_true]

theorem count?_closing {depth : Nat} {b : UInt8} (closes : b = 0x7D ∨ b = 0x5D) :
    count? (depth + 1) b = some depth := by
  have opens : ¬ (b = 0x7B ∨ b = 0x5B) := fun opens => not_closes_of_opens opens closes
  simp only [count?, opens, closes, ite_false, ite_true, Nat.add_one_ne_zero, Nat.add_sub_cancel]

theorem count?_other {depth : Nat} {b : UInt8} (opens : ¬ (b = 0x7B ∨ b = 0x5B))
    (closes : ¬ (b = 0x7D ∨ b = 0x5D)) : count? depth b = some depth := by
  simp only [count?, opens, closes, ite_false]

theorem countedFrom?_eq {limit : Nat} {measuring : Measuring} {length : Nat} {bytes : List UInt8}
    (deep : measuring ≠ .container 0) :
    countedFrom? limit measuring length bytes = some (extentFrom limit measuring length bytes) := by
  induction bytes generalizing measuring length with
  | nil => rfl
  | cons b bytes ih =>
    cases measuring with
    | literal =>
      simp only [countedFrom?, extentFrom]
      split
      · rfl
      · split
        · rfl
        · exact ih Measuring.noConfusion
    | string depth =>
      simp only [countedFrom?, extentFrom]
      split
      · exact ih Measuring.noConfusion
      · split
        · rfl
        · rename_i inside
          split
          · rfl
          · apply ih
            split
            · rename_i quote
              exact fun same => inside ⟨quote, Measuring.container.inj same⟩
            · exact Measuring.noConfusion
    | escape depth =>
      simp only [countedFrom?, extentFrom]
      split
      · rfl
      · exact ih Measuring.noConfusion
    | container depth =>
      -- The counter is above zero at every byte, and where it comes to zero the value is complete.
      obtain ⟨depth, rfl⟩ : ∃ before, depth = before + 1 :=
        Nat.exists_eq_succ_of_ne_zero fun zero => deep (congrArg _ zero)
      by_cases quote : b = 0x22
      · simp only [countedFrom?, extentFrom, quote, ite_true]
        exact ih Measuring.noConfusion
      by_cases closes : b = 0x7D ∨ b = 0x5D
      · have opens : ¬ (b = 0x7B ∨ b = 0x5B) := fun opens => not_closes_of_opens opens closes
        have last : depth + 1 ≤ 1 ↔ depth = 0 := by omega
        simp only [countedFrom?, extentFrom, quote, count?_closing closes, closes, opens, last, true_and, ite_false,
          ite_true, Nat.add_sub_cancel]
        split
        · rfl
        · rename_i left
          split
          · rfl
          · exact ih fun same => left (Measuring.container.inj same)
      · by_cases opens : b = 0x7B ∨ b = 0x5B
        · simp only [countedFrom?, extentFrom, quote, count?_opening opens, closes, opens, false_and, ite_false,
            ite_true]
          split
          · rfl
          · exact ih (by simp)
        · simp only [countedFrom?, extentFrom, quote, count?_other opens closes, closes, opens, false_and,
            ite_false]
          split
          · rfl
          · exact ih (by simp)

theorem counted?_eq (limit : Nat) (bytes : List UInt8) :
    counted? limit bytes = some (extent limit bytes) := by
  cases bytes with
  | nil => rfl
  | cons b bytes =>
    simp only [counted?, extent]
    split
    · exact countedFrom?_eq Measuring.noConfusion
    · rename_i quote
      split
      · rename_i opens
        have closes := not_closes_of_opens opens
        simp only [countedFrom?, extentFrom, quote, count?_opening opens, closes, opens, false_and, ite_false,
          ite_true]
        split
        · rfl
        · exact countedFrom?_eq (by simp)
      · exact countedFrom?_eq Measuring.noConfusion

theorem Wellformed.exists_head {bytes : List UInt8} (wellformed : Wellformed .value bytes) :
    ∃ b tail, bytes = b :: tail ∧ isSpace b = false ∧ b ≠ 0xEF := by
  cases wellformed with
  | null => exact ⟨_, _, rfl, by decide, by decide⟩
  | bool value => cases value <;> exact ⟨_, _, rfl, by decide, by decide⟩
  | number number =>
    obtain ⟨b, tail, split, lead⟩ := (Written.number number).exists_lead
    refine ⟨b, tail, split, lead.starts.1, ?_⟩
    rintro rfl
    rcases lead with minus | digit
    · exact absurd minus (by decide)
    · cases digit
  | string body => exact ⟨_, _, rfl, by decide, by decide⟩
  | array blank inside => exact ⟨_, _, rfl, by decide, by decide⟩
  | object blank inside => exact ⟨_, _, rfl, by decide, by decide⟩

namespace Reading

variable {failure : Option String} {offset : Nat}

theorem peek_cons (b : UInt8) (rest : List UInt8) :
    peek ⟨b :: rest, failure, offset⟩ = .ok (some b) ⟨b :: rest, failure, offset⟩ := rfl

theorem skipMark_none {b : UInt8} (rest : List UInt8) (noMark : b ≠ 0xEF) :
    skipMark ⟨b :: rest, failure, offset⟩ = .ok () ⟨b :: rest, failure, offset⟩ := by
  have other : ¬ some b = some 0xEF := fun same => noMark (Option.some.inj same)
  by_cases atStart : offset = 0
  · simp only [skipMark, bind, EStateM.bind, get_apply, atStart, ite_true, peek_cons, other, ite_false, pure,
      EStateM.pure]
  · simp only [skipMark, bind, EStateM.bind, get_apply, atStart, ite_false, pure, EStateM.pure]

theorem peekSignificant_passed {input : Input} (blank : Blanks) {b : UInt8} (space : isSpace b = false)
    {rest : List UInt8} (passed : skipMark input = .ok () ⟨blank.val ++ b :: rest, failure, offset⟩) :
    peekSignificant input = .ok (some b) ⟨b :: rest, failure, offset + blank.val.length⟩ := by
  have spaces : (blank.val ++ b :: rest).takeWhile isSpace = blank.val := by
    rw [List.takeWhile_append_of_pos blank.property, List.takeWhile_cons_of_neg (by rw [space]; decide),
      List.append_nil]
  simp only [peekSignificant, skipBlanks, bind, EStateM.bind, passed, get_apply, skip, modify_apply,
    Input.advance, spaces, List.drop_left, peek_cons, pure, EStateM.pure]

theorem peekSignificant_found (blank : Blanks) {b : UInt8} (space : isSpace b = false) (noMark : b ≠ 0xEF)
    (rest : List UInt8) :
    peekSignificant ⟨blank.val ++ b :: rest, failure, offset⟩ =
      .ok (some b) ⟨b :: rest, failure, offset + blank.val.length⟩ := by
  apply peekSignificant_passed blank space
  cases split : blank.val with
  | nil => exact skipMark_none rest noMark
  | cons c more =>
    have isBlank := blank.property c (by rw [split]; exact List.mem_cons_self)
    exact skipMark_none _ fun mark => by rw [mark] at isBlank; cases isBlank

theorem capture_value {value : List UInt8} (wellformed : Wellformed .value value) (limit : Nat) (before : Blanks)
    (rest : List UInt8) :
    capture limit ⟨before.val ++ (value ++ rest), failure, offset⟩ =
      captured limit ⟨value ++ rest, failure, offset + before.val.length⟩ := by
  obtain ⟨b, tail, split, space, noMark⟩ := wellformed.exists_head
  have peeked : peekSignificant ⟨before.val ++ (value ++ rest), failure, offset⟩ =
      .ok (some b) ⟨value ++ rest, failure, offset + before.val.length⟩ := by
    rw [split]
    exact peekSignificant_found before space noMark (tail ++ rest)
  rw [capture, bind_of_ok peeked]
  rfl

def Ended (value rest : List UInt8) (failure : Option String) : Prop :=
  value.head?.any isLiteralStart = true → rest = [] ∧ failure = none ∨ rest.head?.any endsLiteral = true

theorem captured_value {value rest : List UInt8} {limit : Nat} (wellformed : Wellformed .value value)
    (fits : testedLength value ≤ limit) (ends : Ended value rest failure) :
    captured limit ⟨value ++ rest, failure, offset⟩ = .ok value ⟨rest, failure, offset + value.length⟩ := by
  have measured := extent_tested wellformed fits rest
  by_cases literal : value.head?.any isLiteralStart = true
  · rw [if_pos literal] at measured
    cases rest with
    | nil =>
      have whole : failure = none := ((ends literal).resolve_right (by decide)).2
      rw [extentFrom] at measured
      simp only [List.append_nil] at measured ⊢
      simp only [captured, measured, literal, ite_true, SeqRight.seqRight, EStateM.seqRight, Input.advance,
        List.drop_length, whole, peek_eq, pure, EStateM.pure]
    | cons stop rest =>
      have delimiter : endsLiteral stop = true :=
        (ends literal).elim (fun none => absurd none.1 (List.cons_ne_nil _ _)) id
      rw [extentFrom_delimiter delimiter] at measured
      simp only [captured, measured, List.take_left, Input.advance, List.drop_left]
  · rw [if_neg literal] at measured
    simp only [captured, measured, List.take_left, Input.advance, List.drop_left]

/-- A value is captured up to its last byte, whatever is in it, when the limit leaves room for it and, if
    it starts with no quote or bracket, a delimiter or the end of the source is behind it. No byte of any
    source makes the measuring lower a counter of open brackets that is zero. -/
theorem capture_takes_value (limit : Nat) :
    (∀ (before : Blanks) (value rest : List UInt8) (failure : Option String) (offset : Nat),
      Wellformed .value value → value.length ≤ limit →
      (value.head?.any isLiteralStart = true →
        rest = [] ∧ failure = none ∨ rest.head?.any endsLiteral = true) →
      capture limit ⟨before.val ++ (value ++ rest), failure, offset⟩ =
        .ok value ⟨rest, failure, offset + (before.val.length + value.length)⟩) ∧
    ∀ bytes, counted? limit bytes = some (extent limit bytes) := by
  refine ⟨?_, counted?_eq limit⟩
  intro before value rest failure offset wellformed fits ends
  have tested := Nat.le_trans (testedLength_le value) fits
  rw [capture_value wellformed, captured_value wellformed tested ends, Nat.add_assoc]

theorem capture_takes_bracketed_string :
    capture 8 ⟨Text.bytesOf " [\"]\\\"\"],42", none, 0⟩ =
      .ok (Text.bytesOf "[\"]\\\"\"]") ⟨Text.bytesOf ",42", none, 8⟩ ∧
    capture 8 ⟨Text.bytesOf "42", none, 9⟩ = .ok (Text.bytesOf "42") ⟨[], none, 11⟩ := by
  let array : Written := .array .none [⟨.none, .string [.plain ']' (by decide), .short .quote], .none⟩]
  let number : WrittenNumber := ⟨false, ⟨[0x34, 0x32], by simp [isDigit]⟩, by decide, none, none⟩
  have first : Text.bytesOf "[\"]\\\"\"]" = array.bytes := by decide +kernel
  have second : Text.bytesOf "42" = number.bytes := by decide +kernel
  have whole : Text.bytesOf " [\"]\\\"\"],42" = [0x20] ++ (array.bytes ++ Text.bytesOf ",42") := by decide +kernel
  rw [whole, first, second]
  exact ⟨(capture_takes_value 8).1 ⟨[0x20], by simp [isSpace]⟩ array.bytes (Text.bytesOf ",42") none 0 array.wellformed
      (by decide) (by decide),
    (capture_takes_value 8).1 .none number.bytes [] none 9 (.number number) (by decide) fun _ => .inl ⟨rfl, rfl⟩⟩

end Reading

end EpcisDigest.Json
