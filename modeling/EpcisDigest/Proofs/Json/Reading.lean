import EpcisDigest.Proofs.Json.Measuring
import EpcisDigest.Proofs.Json.ParsedText

namespace EpcisDigest.Json

section State

variable {ε σ α β : Type} {action : EStateM ε σ α} {next : α → EStateM ε σ β}

theorem get_apply (s : σ) : (get : EStateM ε σ σ) s = .ok s s := rfl

theorem set_apply (s s' : σ) : (set s' : EStateM ε σ PUnit) s = .ok ⟨⟩ s' := rfl

theorem modify_apply (f : σ → σ) (s : σ) : (modify f : EStateM ε σ PUnit) s = .ok ⟨⟩ (f s) := rfl

theorem bind_of_ok {s s' : σ} {a : α} (first : action s = .ok a s') :
    (action >>= next) s = next a s' := by
  simp only [bind, EStateM.bind, first]

theorem bind_of_error {s s' : σ} {e : ε} (first : action s = .error e s') :
    (action >>= next) s = .error e s' := by
  simp only [bind, EStateM.bind, first]

theorem exists_of_bind_ok {s s' : σ} {b : β} (h : (action >>= next) s = .ok b s') :
    ∃ a middle, action s = .ok a middle ∧ next a middle = .ok b s' := by
  simp only [bind, EStateM.bind] at h
  split at h
  · rename_i a middle first
    exact ⟨a, middle, first, h⟩
  · cases h

end State

namespace Blanks

def none : Blanks := ⟨[], fun _ member => by cases member⟩

def append (first second : Blanks) : Blanks :=
  ⟨first.val ++ second.val, fun b member =>
    (List.mem_append.mp member).elim (first.property b) (second.property b)⟩

end Blanks

def Input.inside (rest : List UInt8) (offset : Nat) : Input := ⟨rest, none, offset + 1⟩

namespace Reading

open Input

theorem peek_eq (bytes : List UInt8) (offset : Nat) :
    peek ⟨bytes, none, offset⟩ = .ok bytes.head? ⟨bytes, none, offset⟩ := by
  cases bytes <;> rfl

theorem of_peek {input input' : Input} {found : Option UInt8} (h : peek input = .ok found input') :
    input' = input ∧ found = input.rest.head? := by
  obtain ⟨rest, failure, offset⟩ := input
  cases rest <;> cases failure <;> cases h <;> exact ⟨rfl, rfl⟩

theorem skipMark_eq {bytes : List UInt8} {offset : Nat}
    (noMark : offset = 0 → bytes.head? ≠ some 0xEF) :
    skipMark ⟨bytes, none, offset⟩ = .ok () ⟨bytes, none, offset⟩ := by
  by_cases atStart : offset = 0
  · subst atStart
    simp only [skipMark, bind, EStateM.bind, get_apply, ite_true,
      peek_eq, noMark rfl, ite_false, pure, EStateM.pure]
  · simp only [skipMark, bind, EStateM.bind, get_apply, atStart,
      ite_false, pure, EStateM.pure]

theorem drop_takeWhile (bytes : List UInt8) :
    bytes.drop (bytes.takeWhile isSpace).length = skipSpaces bytes := by
  conv => lhs; arg 2; rw [← List.takeWhile_append_dropWhile (p := isSpace) (l := bytes)]
  rw [List.drop_left]
  rfl

theorem peekSignificant_of_skipMark {input : Input} {bytes : List UInt8} {offset : Nat}
    (passed : skipMark input = .ok () ⟨bytes, none, offset⟩) :
    peekSignificant input = .ok (skipSpaces bytes).head?
      ⟨skipSpaces bytes, none, offset + (bytes.takeWhile isSpace).length⟩ := by
  simp only [peekSignificant, skipBlanks, bind, EStateM.bind, passed, get_apply, skip, modify_apply, Input.advance,
    drop_takeWhile, peek_eq, pure, EStateM.pure]

theorem peekSignificant_eq {bytes : List UInt8} {offset : Nat}
    (noMark : offset = 0 → bytes.head? ≠ some 0xEF) :
    peekSignificant ⟨bytes, none, offset⟩ = .ok (skipSpaces bytes).head?
      ⟨skipSpaces bytes, none, offset + (bytes.takeWhile isSpace).length⟩ :=
  peekSignificant_of_skipMark (skipMark_eq noMark)

theorem takeIf_eq {bytes : List UInt8} {offset : Nat} (wanted : UInt8)
    (noMark : offset = 0 → bytes.head? ≠ some 0xEF) :
    takeIf wanted ⟨bytes, none, offset⟩ =
      if (skipSpaces bytes).head? = some wanted then
        .ok true ⟨(skipSpaces bytes).tail, none, offset + (bytes.takeWhile isSpace).length + 1⟩
      else .ok false ⟨skipSpaces bytes, none, offset + (bytes.takeWhile isSpace).length⟩ := by
  rw [takeIf, bind_of_ok (peekSignificant_eq noMark)]
  split
  · rw [← List.drop_one]
    rfl
  · rfl

theorem noMark_inside {bytes : List UInt8} {offset : Nat} :
    offset + 1 = 0 → bytes.head? ≠ some 0xEF := fun h => absurd h (Nat.succ_ne_zero _)

theorem peekSignificant_inside (bytes : List UInt8) (offset : Nat) :
    ∃ offset', peekSignificant (inside bytes offset) =
      .ok (skipSpaces bytes).head? (inside (skipSpaces bytes) offset') := by
  refine ⟨offset + (bytes.takeWhile isSpace).length, ?_⟩
  rw [inside, peekSignificant_eq noMark_inside, inside, Nat.add_right_comm]

theorem takeIf_found (blank : Blanks) {wanted : UInt8} (space : isSpace wanted = false)
    (rest : List UInt8) (offset : Nat) :
    ∃ offset', takeIf wanted (inside (blank.val ++ wanted :: rest) offset) =
      .ok true (inside rest offset') := by
  refine ⟨offset + ((blank.val ++ wanted :: rest).takeWhile isSpace).length + 1, ?_⟩
  rw [inside, takeIf_eq wanted noMark_inside, skipSpaces_blanks, skipSpaces_cons space]
  simp only [List.head?_cons, ite_true, List.tail_cons, inside]
  congr 2
  omega

theorem takeIf_other (blank : Blanks) {wanted b : UInt8} (space : isSpace b = false)
    (other : b ≠ wanted) (rest : List UInt8) (offset : Nat) :
    ∃ offset', takeIf wanted (inside (blank.val ++ b :: rest) offset) =
      .ok false (inside (b :: rest) offset') := by
  have differs : ¬ some b = some wanted := fun same => other (Option.some.inj same)
  refine ⟨offset + ((blank.val ++ b :: rest).takeWhile isSpace).length, ?_⟩
  rw [inside, takeIf_eq wanted noMark_inside, skipSpaces_blanks, skipSpaces_cons space]
  simp only [List.head?_cons, differs, ite_false, inside]
  congr 2
  omega

theorem of_takeIf {wanted : UInt8} {bytes : List UInt8} {offset : Nat} {found : Bool} {input : Input}
    (h : takeIf wanted (inside bytes offset) = .ok found input) :
    ∃ (blank : Blanks) (rest : List UInt8) (offset' : Nat), input = inside rest offset' ∧
      bytes = blank.val ++ ((if found then [wanted] else []) ++ rest) := by
  obtain ⟨blank, whole⟩ := exists_blanks bytes
  rw [inside, takeIf_eq wanted noMark_inside] at h
  split at h
  · rename_i head
    injection h with found_eq input_eq
    subst found_eq input_eq
    obtain ⟨tail, found⟩ := List.head?_eq_some_iff.mp head
    refine ⟨blank, tail, offset + (bytes.takeWhile isSpace).length + 1, ?_, ?_⟩
    · rw [found, List.tail_cons, inside]
      congr 1
      omega
    · rw [found] at whole
      simpa only [ite_true, List.singleton_append] using whole
  · injection h with found_eq input_eq
    subst found_eq input_eq
    refine ⟨blank, skipSpaces bytes, offset + (bytes.takeWhile isSpace).length, ?_, ?_⟩
    · rw [inside, Nat.add_right_comm]
    · simpa only [Bool.false_eq_true, ite_false, List.nil_append] using whole

theorem expect_found (blank : Blanks) {wanted : UInt8} (space : isSpace wanted = false)
    (rest : List UInt8) (offset : Nat) :
    ∃ offset', expect wanted (inside (blank.val ++ wanted :: rest) offset) =
      .ok () (inside rest offset') := by
  obtain ⟨offset', taken⟩ := takeIf_found blank space rest offset
  refine ⟨offset', ?_⟩
  rw [expect, bind_of_ok taken]
  rfl

theorem of_expect {wanted : UInt8} {bytes : List UInt8} {offset : Nat} {input : Input}
    (h : expect wanted (inside bytes offset) = .ok () input) :
    ∃ (blank : Blanks) (rest : List UInt8) (offset' : Nat), input = inside rest offset' ∧
      bytes = blank.val ++ wanted :: rest := by
  obtain ⟨found, middle, taken, h⟩ := exists_of_bind_ok h
  cases found with
  | true =>
    injection h with _ input_eq
    subst input_eq
    exact of_takeIf taken
  | false =>
    obtain ⟨head, after, _, h⟩ := exists_of_bind_ok h
    cases h

theorem readString_found (blank : Blanks) (string : WrittenString) (rest : List UInt8) (offset : Nat) :
    ∃ offset', readString (inside (blank.val ++ (string.quoted ++ rest)) offset) =
      .ok string.text (inside rest offset') := by
  obtain ⟨offset', quote⟩ := expect_found blank (show isSpace 0x22 = false from rfl)
    (string.bytes ++ 0x22 :: rest) offset
  refine ⟨offset' + (string.bytes.length + 1), ?_⟩
  simp only [WrittenString.quoted, List.cons_append, List.append_assoc, List.nil_append]
  rw [readString, bind_of_ok quote]
  have behind : string.bytes ++ 0x22 :: rest = (string.bytes ++ [0x22]) ++ rest := by simp
  have size : string.bytes.length + 1 = (string.bytes ++ [0x22]).length := by simp
  simp only [stringBody, inside, scanString_writtenString, Input.advance]
  rw [behind, size, List.drop_left, Nat.add_right_comm]

theorem of_readString {bytes : List UInt8} {offset : Nat} {text : String} {input : Input}
    (h : readString (inside bytes offset) = .ok text input) :
    ∃ (blank : Blanks) (string : WrittenString) (rest : List UInt8) (offset' : Nat),
      input = inside rest offset' ∧ string.text = text ∧
        bytes = blank.val ++ (string.quoted ++ rest) := by
  obtain ⟨_, middle, quote, body⟩ := exists_of_bind_ok h
  obtain ⟨blank, tail, offset', rfl, rfl⟩ := of_expect quote
  clear h
  simp only [stringBody, inside] at body
  split at body
  · rename_i closed
    injection body with text_eq input_eq
    subst text_eq input_eq
    obtain ⟨string, rest, rfl, same, rfl⟩ := exists_writtenString_of_closed closed
    have behind : string.bytes ++ 0x22 :: rest = (string.bytes ++ [0x22]) ++ rest := by simp
    have size : string.bytes.length + 1 = (string.bytes ++ [0x22]).length := by simp
    refine ⟨blank, string, rest, offset' + (string.bytes.length + 1), ?_, same, ?_⟩
    · rw [Input.advance, inside]
      dsimp only
      rw [behind, size, List.drop_left, Nat.add_right_comm]
    · simp only [WrittenString.quoted, List.cons_append, List.append_assoc, List.nil_append]
  · cases body
  · obtain ⟨head, after, _, refused⟩ := exists_of_bind_ok body
    cases refused

theorem capture_found {limit : Nat} (blank : Blanks) (written : Written) {stop : UInt8}
    (ends : endsLiteral stop = true) (fits : written.bytes.length ≤ limit) (rest : List UInt8)
    (offset : Nat) :
    ∃ offset', capture limit (inside (blank.val ++ (written.bytes ++ stop :: rest)) offset) =
      .ok written.bytes (inside (stop :: rest) offset') := by
  obtain ⟨offset', peeked⟩ :=
    peekSignificant_inside (blank.val ++ (written.bytes ++ stop :: rest)) offset
  rw [skipSpaces_blanks, skipSpaces_written] at peeked
  obtain ⟨b, bytes, split, -⟩ := written.exists_lead
  have something : (written.bytes ++ stop :: rest).head? = some b := by rw [split]; rfl
  rw [something] at peeked
  refine ⟨offset' + written.bytes.length, ?_⟩
  rw [capture, bind_of_ok peeked]
  simp only [Option.isNone_some, Bool.false_eq_true, ite_false, bind, captured, inside,
    extent_written written rest fits ends, List.take_left, Input.advance, List.drop_left, Nat.add_right_comm]

theorem extentFrom_unfinished {limit : Nat} {measuring : Measuring} {length found : Nat}
    {bytes : List UInt8} (h : extentFrom limit measuring length bytes = .unfinished found) :
    found = length + bytes.length := by
  induction bytes generalizing measuring length with
  | nil =>
    rw [extentFrom] at h
    injection h with h
    exact h.symm
  | cons b bytes ih =>
    rcases extentFrom_cons_cases limit measuring length b with ⟨_, -, ends⟩ | beyond | ⟨next, leads⟩
    · cases (ends bytes).symm.trans h
    · cases (beyond bytes).symm.trans h
    · have same := ih ((leads bytes).symm.trans h)
      rw [List.length_cons]
      omega

theorem extent_unfinished {limit found : Nat} {bytes : List UInt8}
    (h : extent limit bytes = .unfinished found) : found = bytes.length := by
  cases bytes with
  | nil =>
    injection h with h
    exact h.symm
  | cons b bytes =>
    rcases extent_cons_cases limit b with string | ⟨measuring, other⟩
    · have same := extentFrom_unfinished ((string bytes).symm.trans h)
      rw [List.length_cons]
      omega
    · have same := extentFrom_unfinished ((other bytes).symm.trans h)
      omega

theorem of_captured {limit : Nat} {bytes taken : List UInt8} {offset : Nat} {input : Input}
    (h : captured limit ⟨bytes, none, offset⟩ = .ok taken input) :
    ∃ (rest : List UInt8) (count : Nat), input = ⟨rest, none, offset + count⟩ ∧ bytes = taken ++ rest := by
  simp only [captured] at h
  split at h
  · rename_i length measured
    injection h with taken_eq input_eq
    subst taken_eq input_eq
    exact ⟨bytes.drop length, length, rfl, (List.take_append_drop _ _).symm⟩
  · cases h
  · rename_i length measured
    have all := extent_unfinished measured
    split at h
    · simp only [SeqRight.seqRight, EStateM.seqRight, Input.advance, peek_eq, pure, EStateM.pure] at h
      injection h with taken_eq input_eq
      subst taken_eq input_eq
      refine ⟨bytes.drop length, length, rfl, ?_⟩
      rw [all, List.drop_length, List.append_nil]
    · obtain ⟨head, after, _, refused⟩ := exists_of_bind_ok h
      cases refused

theorem of_capture {limit : Nat} {bytes taken : List UInt8} {offset : Nat} {input : Input}
    (h : capture limit (inside bytes offset) = .ok taken input) :
    ∃ (blank : Blanks) (rest : List UInt8) (offset' : Nat), input = inside rest offset' ∧
      bytes = blank.val ++ (taken ++ rest) := by
  obtain ⟨blank, whole⟩ := exists_blanks bytes
  obtain ⟨head, middle, peeked, held⟩ := exists_of_bind_ok h
  obtain ⟨offset', settled⟩ := peekSignificant_inside bytes offset
  rw [settled] at peeked
  injection peeked with head_eq middle_eq
  subst head_eq middle_eq
  dsimp only at held
  split at held
  · cases held
  · obtain ⟨rest, count, rfl, split⟩ := of_captured held
    refine ⟨blank, rest, offset' + count, ?_, split ▸ whole⟩
    rw [inside, Nat.add_right_comm]

end Reading

end EpcisDigest.Json
