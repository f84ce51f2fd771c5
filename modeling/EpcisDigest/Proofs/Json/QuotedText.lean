import EpcisDigest.Proofs.Json.Capture
import EpcisDigest.Proofs.Json.Consumed

namespace EpcisDigest.Json.Reading

variable {failure : Option String} {offset : Nat}

theorem skipMark_marked (marked : Bool) {bytes : List UInt8} (present : bytes ≠ []) (noMark : bytes.head? ≠ some 0xEF)
    (atStart : marked = true → offset = 0) :
    skipMark ⟨markBytes marked ++ bytes, failure, offset⟩ =
      .ok () ⟨bytes, failure, offset + (markBytes marked).length⟩ := by
  cases marked with
  | false =>
    obtain ⟨b, rest, rfl⟩ := List.exists_cons_of_ne_nil present
    exact skipMark_none rest fun mark => noMark (congrArg some mark)
  | true =>
    have taken := @takeMark_found failure [0xEF, 0xBB, 0xBF] bytes offset
    simp only [markBytes, ite_true, List.cons_append, List.nil_append] at taken ⊢
    simp only [skipMark, bind, EStateM.bind, get_apply, atStart rfl, ite_true, peek_cons] at taken ⊢
    exact taken

theorem split_of_peekSignificant {bytes : List UInt8} {found : Option UInt8} {after : Input}
    (h : peekSignificant ⟨bytes, failure, offset⟩ = .ok found after) :
    ∃ (marked : Bool) (before : Blanks) (rest : List UInt8), (marked = true → offset = 0) ∧
      bytes = markBytes marked ++ (before.val ++ rest) ∧
      after = ⟨rest, failure, offset + ((markBytes marked).length + before.val.length)⟩ := by
  obtain ⟨_, passed, skipped, looked⟩ := exists_of_bind_ok h
  obtain ⟨_, _, mark, gets⟩ := exists_of_bind_ok skipped
  obtain ⟨marked, rest, atStart, rfl, rfl⟩ := of_skipMark mark
  obtain ⟨_, _, got, skips⟩ := exists_of_bind_ok gets
  injection got with same same'
  subst same same'
  obtain ⟨_, _, blanks, peeks⟩ := exists_of_bind_ok skips
  injection blanks with _ blanks_eq
  obtain ⟨_, _, peeked, ends⟩ := exists_of_bind_ok peeks
  injection ends with _ passed_eq
  subst passed_eq blanks_eq
  obtain ⟨rfl, -⟩ := of_peek peeked
  obtain ⟨rfl, -⟩ := of_peek looked
  have spaces : ∀ b ∈ rest.takeWhile isSpace, isSpace b = true := List.all_eq_true.mp List.all_takeWhile
  refine ⟨marked, ⟨rest.takeWhile isSpace, spaces⟩, skipSpaces rest, atStart, ?_, ?_⟩
  · exact congrArg (markBytes marked ++ ·) List.takeWhile_append_dropWhile.symm
  · simp only [Input.advance, drop_takeWhile, Nat.add_assoc]

theorem expect_marked (marked : Bool) (before : Blanks) {wanted : UInt8} (space : isSpace wanted = false)
    (noMark : wanted ≠ 0xEF) (rest : List UInt8) (atStart : marked = true → offset = 0) :
    expect wanted ⟨markBytes marked ++ (before.val ++ wanted :: rest), failure, offset⟩ =
      .ok () ⟨rest, failure, offset + ((markBytes marked).length + before.val.length + 1)⟩ := by
  have passed := @skipMark_marked failure offset marked _
    (List.append_ne_nil_of_right_ne_nil before.val (List.cons_ne_nil wanted rest)) (before.unmarked noMark rest) atStart
  have peeked := peekSignificant_passed before space passed
  have taken : takeIf wanted ⟨markBytes marked ++ (before.val ++ wanted :: rest), failure, offset⟩ =
      .ok true ⟨rest, failure, offset + (markBytes marked).length + before.val.length + 1⟩ := by
    rw [takeIf, bind_of_ok peeked, if_pos rfl]
    rfl
  rw [expect, bind_of_ok taken, ← Nat.add_assoc, ← Nat.add_assoc]
  rfl

theorem of_expect_marked {wanted : UInt8} {bytes : List UInt8} {after : Input}
    (h : expect wanted ⟨bytes, failure, offset⟩ = .ok () after) :
    ∃ (marked : Bool) (before : Blanks) (rest : List UInt8), (marked = true → offset = 0) ∧
      bytes = markBytes marked ++ (before.val ++ wanted :: rest) ∧
      after = ⟨rest, failure, offset + ((markBytes marked).length + before.val.length + 1)⟩ := by
  obtain ⟨found, middle, taken, ends⟩ := exists_of_bind_ok h
  obtain ⟨head, between, peeked, decides⟩ := exists_of_bind_ok taken
  have head_eq := of_peekSignificant peeked
  obtain ⟨marked, before, rest, atStart, rfl, rfl⟩ := split_of_peekSignificant peeked
  by_cases same : head = some wanted
  · rw [if_pos same] at decides
    injection decides with found_eq middle_eq
    subst found_eq middle_eq
    injection ends with _ after_eq
    obtain ⟨tail, rfl⟩ := List.head?_eq_some_iff.mp (head_eq.symm.trans same)
    exact ⟨marked, before, tail, atStart, rfl, after_eq.symm⟩
  · rw [if_neg same] at decides
    injection decides with found_eq middle_eq
    subst found_eq
    obtain ⟨_, _, _, refused⟩ := exists_of_bind_ok ends
    cases refused

theorem stringBody_iff {bytes : List UInt8} {text : String} {after : Input} :
    stringBody ⟨bytes, failure, offset⟩ = .ok text after ↔
      ∃ (string : WrittenString) (rest : List UInt8), bytes = string.bytes ++ 0x22 :: rest ∧ string.text = text ∧
        after = ⟨rest, failure, offset + (string.bytes.length + 1)⟩ := by
  have behind : ∀ (string : WrittenString) (rest : List UInt8),
      (string.bytes ++ 0x22 :: rest).drop (string.bytes.length + 1) = rest := by
    intro string rest
    rw [← List.drop_drop, List.drop_left, List.drop_one, List.tail_cons]
  constructor
  · intro h
    simp only [stringBody] at h
    split at h
    · rename_i closed
      injection h with text_eq after_eq
      obtain ⟨string, rest, rfl, same, rfl⟩ := exists_writtenString_of_closed closed
      refine ⟨string, rest, rfl, same.trans text_eq, ?_⟩
      rw [← after_eq, Input.advance, behind]
    · cases h
    · obtain ⟨_, _, _, refused⟩ := exists_of_bind_ok h
      cases refused
  · rintro ⟨string, rest, rfl, rfl, rfl⟩
    simp only [stringBody, scanString_writtenString, Input.advance, behind]

/-- A string is read from an input exactly when a spelling of it comes next behind any blanks, with a mark before
    these only at the start of a source, and what follows is left as it is. -/
theorem readString_ok_iff (input after : Input) (text : String) :
    readString input = .ok text after ↔
      ∃ (marked : Bool) (before : Blanks) (string : WrittenString) (rest : List UInt8),
        (marked = true → input.offset = 0) ∧
        input.rest = markBytes marked ++ (before.val ++ (string.quoted ++ rest)) ∧ string.text = text ∧
        after = ⟨rest, input.failure,
          input.offset + ((markBytes marked).length + before.val.length + string.quoted.length)⟩ := by
  obtain ⟨bytes, failure, offset⟩ := input
  have written : ∀ (string : WrittenString) (rest : List UInt8),
      string.quoted ++ rest = 0x22 :: (string.bytes ++ 0x22 :: rest) := by
    intro string rest
    simp only [WrittenString.quoted, List.cons_append, List.append_assoc, List.nil_append]
  have size : ∀ string : WrittenString, string.quoted.length = string.bytes.length + 2 := by
    intro string
    simp only [WrittenString.quoted, List.length_cons, List.length_append, List.length_nil]
  constructor
  · intro h
    obtain ⟨_, middle, quote, body⟩ := exists_of_bind_ok h
    obtain ⟨marked, before, tail, atStart, rfl, rfl⟩ := of_expect_marked quote
    obtain ⟨string, rest, rfl, same, rfl⟩ := stringBody_iff.mp body
    refine ⟨marked, before, string, rest, atStart, by rw [written], same, ?_⟩
    rw [size]
    congr 1
    dsimp only
    omega
  · rintro ⟨marked, before, string, rest, atStart, split, same, rfl⟩
    dsimp only at atStart split ⊢
    rw [split, written]
    have opened := @expect_marked failure offset marked before 0x22 rfl (by decide) (string.bytes ++ 0x22 :: rest)
      atStart
    rw [readString, bind_of_ok opened]
    refine stringBody_iff.mpr ⟨string, rest, rfl, same, ?_⟩
    rw [size]
    congr 1
    omega

end EpcisDigest.Json.Reading
