import EpcisDigest.Proofs.Json.Capture

namespace EpcisDigest.Json

def Lowered (found higher : Extent) : Prop := found = higher ∨ ∃ size, found = .tooLong size

theorem Lowered.tested {limit higher : Nat} {found found' : Extent} (lower : limit ≤ higher)
    (lowered : Lowered found found') (size : Nat) :
    Lowered (if limit < size then .tooLong size else found) (if higher < size then .tooLong size else found') := by
  by_cases beyond : limit < size
  · rw [if_pos beyond]
    exact .inr ⟨size, rfl⟩
  · have within : ¬ higher < size := by omega
    rwa [if_neg beyond, if_neg within]

theorem extentFrom_lowered {limit higher : Nat} (lower : limit ≤ higher) (measuring : Measuring) (length : Nat)
    (bytes : List UInt8) :
    Lowered (extentFrom limit measuring length bytes) (extentFrom higher measuring length bytes) := by
  induction bytes generalizing measuring length with
  | nil => exact .inl rfl
  | cons b bytes ih =>
    cases measuring with
    | literal =>
      simp only [extentFrom]
      split
      · exact .inl rfl
      · exact (ih _ _).tested lower _
    | string depth =>
      simp only [extentFrom]
      split
      · exact ih _ _
      split
      · exact .inl rfl
      · exact (ih _ _).tested lower _
    | escape depth => exact (ih _ _).tested lower _
    | container depth =>
      simp only [extentFrom]
      split
      · exact ih _ _
      split
      · exact .inl rfl
      · exact (ih _ _).tested lower _

theorem extent_lowered {limit higher : Nat} (lower : limit ≤ higher) (bytes : List UInt8) :
    Lowered (extent limit bytes) (extent higher bytes) := by
  cases bytes with
  | nil => exact .inl rfl
  | cons b bytes =>
    simp only [extent]
    split
    · exact extentFrom_lowered lower _ _ _
    split <;> exact extentFrom_lowered lower _ _ _

/-- No more than `limit` bytes have been seen at a byte behind which the value may be complete, and no value is
    complete before another test where this says nothing. -/
def Kept (limit : Nat) : Measuring → Nat → Prop
  | .literal, length => length ≤ limit
  | .string depth, length => depth = 0 → length ≤ limit
  | .escape _, _ => True
  | .container depth, length => depth ≠ 0 ∧ length ≤ limit

/-- One byte ends the value, or keeps what has been seen within the limit. -/
theorem Kept.step {limit length found : Nat} {measuring : Measuring} {b : UInt8} {bytes : List UInt8}
    (kept : Kept limit measuring length) (h : extentFrom limit measuring length (b :: bytes) = .complete found) :
    found ≤ limit + 1 ∨
      ∃ next, Kept limit next (length + 1) ∧ extentFrom limit next (length + 1) bytes = .complete found := by
  cases measuring with
  | literal =>
    simp only [Kept] at kept
    simp only [extentFrom] at h
    split at h
    · injection h with same
      omega
    split at h
    · cases h
    · rename_i within
      exact .inr ⟨.literal, Nat.not_lt.mp within, h⟩
  | string depth =>
    simp only [extentFrom] at h
    split at h
    · exact .inr ⟨.escape depth, trivial, h⟩
    split at h
    · rename_i closes
      injection h with same
      have held := kept closes.2
      omega
    split at h
    · cases h
    · rename_i inside within
      refine .inr ⟨_, ?_, h⟩
      split
      · rename_i quote
        exact ⟨fun outermost => inside ⟨quote, outermost⟩, Nat.not_lt.mp within⟩
      · exact fun _ => Nat.not_lt.mp within
  | escape depth =>
    simp only [extentFrom] at h
    split at h
    · cases h
    · rename_i within
      exact .inr ⟨.string depth, fun _ => Nat.not_lt.mp within, h⟩
  | container depth =>
    obtain ⟨deep, held⟩ := kept
    simp only [extentFrom] at h
    split at h
    · exact .inr ⟨.string depth, fun outermost => absurd outermost deep, h⟩
    split at h
    · injection h with same
      omega
    split at h
    · cases h
    · rename_i open' within
      refine .inr ⟨.container _, ⟨?_, Nat.not_lt.mp within⟩, h⟩
      split
      · exact Nat.succ_ne_zero depth
      split
      · rename_i closes
        have above : ¬ depth ≤ 1 := fun last => open' ⟨closes, last⟩
        omega
      · exact deep

/-- The one byte that may go beyond the limit is the one that closes the value. -/
theorem extentFrom_le {limit length found : Nat} {measuring : Measuring} {bytes : List UInt8}
    (kept : Kept limit measuring length) (h : extentFrom limit measuring length bytes = .complete found) :
    found ≤ limit + 1 := by
  induction bytes generalizing measuring length with
  | nil => cases h
  | cons b bytes ih =>
    rcases kept.step h with ended | ⟨next, kept', leads⟩
    · exact ended
    · exact ih kept' leads

theorem extentFrom_literal_le {limit length found : Nat} {bytes : List UInt8} (kept : length ≤ limit)
    (h : extentFrom limit .literal length bytes = .complete found ∨
      extentFrom limit .literal length bytes = .unfinished found) : found ≤ limit := by
  induction bytes generalizing length with
  | nil =>
    rcases h with h | h
    · cases h
    · injection h with same
      omega
  | cons b bytes ih =>
    simp only [extentFrom] at h
    split at h
    · rcases h with h | h
      · injection h with same
        omega
      · cases h
    split at h
    · rcases h with h | h <;> cases h
    · rename_i within
      exact ih (Nat.not_lt.mp within) h

theorem testedLength_pred {value : List UInt8} (literal : ¬ value.head?.any isLiteralStart = true) {limit : Nat}
    (fits : value.length ≤ limit + 1) : testedLength value ≤ limit := by
  unfold testedLength
  rw [if_neg literal]
  split <;> omega

theorem length_le_testedLength (value : List UInt8) :
    value.length ≤ testedLength value + if value = inQuotes [] then 2 else 1 := by
  unfold testedLength
  split
  · exact Nat.le_add_right _ _
  split
  · rename_i empty
    rw [empty]
    exact Nat.le_refl 2
  · omega

theorem extent_literal {limit : Nat} {b : UInt8} (literal : isLiteralStart b = true) (bytes : List UInt8) :
    extent limit (b :: bytes) = extentFrom limit .literal 0 (b :: bytes) := by
  simp only [isLiteralStart, Bool.not_eq_true', Bool.or_eq_false_iff, beq_eq_false_iff_ne] at literal
  obtain ⟨⟨quote, openBrace⟩, openBracket⟩ := literal
  simp only [extent, quote, openBrace, openBracket, or_self, ite_false]

/-- Only in the empty string does no test come before the quote that closes it. -/
theorem extentFrom_string_le {limit found : Nat} {bytes : List UInt8}
    (h : extentFrom limit (.string 0) 1 bytes = .complete found) :
    found ≤ limit + 1 ∨ found = 2 ∧ bytes.head? = some 0x22 := by
  cases bytes with
  | nil => cases h
  | cons b bytes =>
    by_cases closes : b = 0x22
    · subst closes
      injection h with same
      exact .inr ⟨same.symm, rfl⟩
    left
    by_cases backslash : b = 0x5C
    · rw [extentFrom, if_pos backslash] at h
      exact extentFrom_le (show Kept limit (.escape 0) 2 from trivial) h
    · rw [extentFrom, if_neg backslash, if_neg fun both => closes both.1, if_neg closes] at h
      split at h
      · cases h
      · rename_i within
        exact extentFrom_le (show Kept limit (.string 0) 2 from fun _ => Nat.not_lt.mp within) h

theorem extent_container_le {limit found : Nat} {b : UInt8} {bytes : List UInt8} (opens : b = 0x7B ∨ b = 0x5B)
    (h : extent limit (b :: bytes) = .complete found) : found ≤ limit + 1 := by
  have quote : b ≠ 0x22 := by rcases opens with rfl | rfl <;> decide
  have closes := not_closes_of_opens opens
  simp only [extent, extentFrom, quote, opens, closes, false_and, ite_false, ite_true] at h
  split at h
  · cases h
  · rename_i within
    exact extentFrom_le (show Kept limit (.container 1) 1 from ⟨Nat.one_ne_zero, Nat.not_lt.mp within⟩) h

theorem testedLength_of_complete {limit found : Nat} {bytes : List UInt8}
    (h : extent limit bytes = .complete found) : testedLength (bytes.take found) ≤ limit := by
  have size : (bytes.take found).length ≤ found := by
    rw [List.length_take]
    exact Nat.min_le_left _ _
  cases bytes with
  | nil => cases h
  | cons b bytes =>
    by_cases literal : isLiteralStart b = true
    · rw [extent_literal literal] at h
      have within := extentFrom_literal_le (Nat.zero_le limit) (.inl h)
      exact Nat.le_trans (testedLength_le _) (Nat.le_trans size within)
    have other : ¬ ((b :: bytes).take found).head?.any isLiteralStart = true := by
      cases found with
      | zero => exact Bool.false_ne_true
      | succ count => exact literal
    by_cases quote : b = 0x22
    · subst quote
      rcases extentFrom_string_le h with within | ⟨rfl, closes⟩
      · exact testedLength_pred other (Nat.le_trans size within)
      · obtain ⟨tail, rfl⟩ := List.head?_eq_some_iff.mp closes
        exact Nat.zero_le limit
    · have opens : b = 0x7B ∨ b = 0x5B := by
        simp only [isLiteralStart, Bool.not_eq_true', Bool.not_eq_false, Bool.or_eq_true, beq_iff_eq, quote,
          false_or] at literal
        exact literal
      exact testedLength_pred other (Nat.le_trans size (extent_container_le opens h))

namespace Reading

theorem testedLength_of_captured {limit : Nat} {input after : Input} {taken : List UInt8}
    (h : captured limit input = .ok taken after) : testedLength taken ≤ limit := by
  simp only [captured] at h
  split at h
  · rename_i measured
    injection h with same
    subst same
    exact testedLength_of_complete measured
  · cases h
  · rename_i length measured
    split at h
    · rename_i literal
      cases head : input.rest with
      | nil =>
        rw [head] at literal
        cases literal
      | cons b bytes =>
        rw [head] at literal measured
        rw [extent_literal literal] at measured
        have within := extentFrom_literal_le (Nat.zero_le limit) (.inr measured)
        have all := extentFrom_unfinished measured
        have whole : taken = b :: bytes := by
          simp only [SeqRight.seqRight, EStateM.seqRight, pure, EStateM.pure, head] at h
          split at h
          · injection h with same
            exact same.symm
          · cases h
        rw [whole]
        have tested := testedLength_le (b :: bytes)
        omega
    · obtain ⟨_, _, _, refused⟩ := exists_of_bind_ok h
      cases refused

theorem captured_lowered {limit higher : Nat} (lower : limit ≤ higher) {input after : Input} {taken : List UInt8}
    (found : captured higher input = .ok taken after) :
    captured limit input = .ok taken after ∨
      ∃ size after, captured limit input = .error (.tooLarge size limit) after := by
  rcases extent_lowered lower input.rest with same | ⟨size, beyond⟩
  · left
    simp only [captured, same] at found ⊢
    split at found
    · exact found
    · cases found
    · exact found
  · exact .inr ⟨size, input.advance size, by simp only [captured, beyond]⟩

/-- A value is refused as too large exactly when it is longer than the limit up to the last byte at which this is
    tested, and nothing longer is returned from any input. That byte is the last one of a literal; of a container it is
    the last before the closing bracket and of a string the last before the closing quote, so that these may
    be longer than the limit by one byte, and an empty string by two. -/
theorem capture_limit (limit : Nat) :
    (∀ (before : Blanks) (value rest : List UInt8) (failure : Option String) (offset : Nat),
      Wellformed .value value →
      (value.head?.any isLiteralStart = true →
        rest = [] ∧ failure = none ∨ rest.head?.any endsLiteral = true) →
      ((∃ size after, capture limit ⟨before.val ++ (value ++ rest), failure, offset⟩ =
        .error (.tooLarge size limit) after) ↔ limit < testedLength value)) ∧
    ∀ (input after : Input) (taken : List UInt8), capture limit input = .ok taken after →
      testedLength taken ≤ limit ∧ taken.length ≤ limit + if taken = inQuotes [] then 2 else 1 := by
  refine ⟨fun before value rest failure offset wellformed ends => ?_, fun input after taken h => ?_⟩
  · rw [capture_value wellformed limit before rest]
    constructor
    · rintro ⟨size, after, refused⟩
      apply Nat.lt_of_not_le
      intro fits
      rw [captured_value wellformed fits ends] at refused
      cases refused
    · intro beyond
      have whole := @captured_value failure (offset + before.val.length) value rest _ wellformed (Nat.le_refl _) ends
      rcases captured_lowered (Nat.le_of_lt beyond) whole with found | refused
      · exact absurd (testedLength_of_captured found) (Nat.not_le.mpr beyond)
      · exact refused
  · obtain ⟨head, middle, -, found⟩ := exists_of_bind_ok h
    split at found
    · cases found
    · have tested := testedLength_of_captured found
      exact ⟨tested, Nat.le_trans (length_le_testedLength taken) (Nat.add_le_add_right tested _)⟩

theorem capture_limit_brackets :
    (capture 1 ⟨[0x5B, 0x5D], none, 0⟩ = .ok [0x5B, 0x5D] ⟨[], none, 2⟩ ∧ testedLength [0x5B, 0x5D] ≤ 1) ∧
    ∃ size after, capture 1 ⟨Text.bytesOf " [7] ", none, 0⟩ = .error (.tooLarge size 1) after := by
  have empty : capture 1 ⟨[0x5B, 0x5D], none, 0⟩ = .ok [0x5B, 0x5D] ⟨[], none, 2⟩ := rfl
  refine ⟨⟨empty, ((capture_limit 1).2 _ _ _ empty).1⟩, ?_⟩
  · let seven : WrittenNumber := ⟨false, ⟨[0x37], by simp [isDigit]⟩, by decide, none, none⟩
    let array : Written := .array .none [⟨.none, .number seven, .none⟩]
    have whole : Text.bytesOf " [7] " = [0x20] ++ (array.bytes ++ [0x20]) := by decide +kernel
    rw [whole]
    exact ((capture_limit 1).1 ⟨[0x20], by simp [isSpace]⟩ array.bytes [0x20] none 0 array.wellformed
      (by decide)).mpr (by decide)

/-- Two brackets are longer than one byte, but they are captured and returned where the limit is one. -/
theorem not_capture_limit_length :
    ¬ ((∀ (limit : Nat) (before : Blanks) (value rest : List UInt8) (failure : Option String) (offset : Nat),
        Wellformed .value value →
        (value.head?.any isLiteralStart = true →
          rest = [] ∧ failure = none ∨ rest.head?.any endsLiteral = true) →
        ((∃ size after, capture limit ⟨before.val ++ (value ++ rest), failure, offset⟩ =
          .error (.tooLarge size limit) after) ↔ limit < value.length)) ∨
      ∀ (limit : Nat) (input after : Input) (taken : List UInt8), capture limit input = .ok taken after →
        taken.length ≤ limit) := by
  have found : capture 1 ⟨[0x5B, 0x5D], none, 0⟩ = .ok [0x5B, 0x5D] ⟨[], none, 2⟩ := rfl
  rintro (exact' | bounded)
  · have brackets : Wellformed .value [0x5B, 0x5D] := .array .none .noItems
    obtain ⟨size, after, refused⟩ := (exact' 1 .none [0x5B, 0x5D] [] none 0 brackets (by decide)).mpr (by decide)
    cases found.symm.trans refused
  · exact absurd (bounded 1 _ _ _ found) (by decide)

end Reading

end EpcisDigest.Json
