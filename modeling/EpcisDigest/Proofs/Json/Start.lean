import EpcisDigest.Proofs.Json.Turns

namespace EpcisDigest.Json

open Reading Input

def markBytes (marked : Bool) : List UInt8 := if marked then [0xEF, 0xBB, 0xBF] else []

theorem Blanks.unmarked (before : Blanks) {b : UInt8} (noMark : b ≠ 0xEF) (rest : List UInt8) :
    (before.val ++ b :: rest).head? ≠ some 0xEF := by
  obtain ⟨bytes, spaces⟩ := before
  cases bytes with
  | nil => exact fun same => noMark (Option.some.inj same)
  | cons c bytes =>
    intro same
    have space := spaces c List.mem_cons_self
    rw [Option.some.inj same] at space
    cases space

namespace Reading

theorem takeMark_found {failure : Option String} (mark rest : List UInt8) (offset : Nat) :
    takeMark mark ⟨mark ++ rest, failure, offset⟩ = .ok () ⟨rest, failure, offset + mark.length⟩ := by
  induction mark generalizing offset with
  | nil => rfl
  | cons wanted mark ih =>
    have taken : next ⟨wanted :: (mark ++ rest), failure, offset⟩ =
        .ok (some wanted) ⟨mark ++ rest, failure, offset + 1⟩ := rfl
    rw [takeMark, List.cons_append, bind_of_ok taken, if_pos rfl, ih, List.length_cons]
    congr 2
    omega

theorem of_takeMark {mark bytes : List UInt8} {failure : Option String} {offset : Nat} {input : Input}
    (h : takeMark mark ⟨bytes, failure, offset⟩ = .ok () input) :
    ∃ rest, bytes = mark ++ rest ∧ input = ⟨rest, failure, offset + mark.length⟩ := by
  induction mark generalizing bytes offset with
  | nil =>
    injection h with _ input_eq
    exact ⟨bytes, rfl, input_eq.symm⟩
  | cons wanted mark ih =>
    cases bytes with
    | nil => cases failure <;> cases h
    | cons b bytes =>
      have taken : next ⟨b :: bytes, failure, offset⟩ = .ok (some b) ⟨bytes, failure, offset + 1⟩ := rfl
      rw [takeMark, bind_of_ok taken] at h
      by_cases same : b = wanted
      · rw [if_pos (congrArg some same)] at h
        obtain ⟨rest, rfl, rfl⟩ := ih h
        refine ⟨rest, by rw [same]; rfl, ?_⟩
        rw [List.length_cons]
        congr 1
        omega
      · rw [if_neg fun h => same (Option.some.inj h)] at h
        cases h

theorem skipMark_found (marked : Bool) {rest : List UInt8} (noMark : rest.head? ≠ some 0xEF) :
    ∃ offset, skipMark ⟨markBytes marked ++ rest, none, 0⟩ = .ok () ⟨rest, none, offset⟩ := by
  cases marked with
  | true =>
    refine ⟨3, ?_⟩
    have taken := @takeMark_found none [0xEF, 0xBB, 0xBF] rest 0
    simp only [skipMark, bind, EStateM.bind, get_apply, ite_true, peek_eq]
    exact taken
  | false => exact ⟨0, skipMark_eq fun _ => noMark⟩

theorem of_skipMark {bytes : List UInt8} {failure : Option String} {offset : Nat} {input : Input}
    (h : skipMark ⟨bytes, failure, offset⟩ = .ok () input) :
    ∃ (marked : Bool) (rest : List UInt8), (marked = true → offset = 0) ∧ bytes = markBytes marked ++ rest ∧
      input = ⟨rest, failure, offset + (markBytes marked).length⟩ := by
  obtain ⟨_, _, got, looks⟩ := exists_of_bind_ok h
  injection got with same same'
  subst same same'
  split at looks
  · rename_i atStart
    obtain ⟨found, _, peeked, takes⟩ := exists_of_bind_ok looks
    obtain ⟨rfl, -⟩ := of_peek peeked
    split at takes
    · obtain ⟨rest, rfl, rfl⟩ := of_takeMark takes
      exact ⟨true, rest, fun _ => atStart, rfl, rfl⟩
    · injection takes with _ input_eq
      exact ⟨false, bytes, nofun, rfl, input_eq.symm⟩
  · injection looks with _ input_eq
    exact ⟨false, bytes, nofun, rfl, input_eq.symm⟩

theorem expect_next {b : UInt8} (space : isSpace b = false) (noMark : b ≠ 0xEF) (rest : List UInt8)
    (offset : Nat) : expect b ⟨b :: rest, none, offset⟩ = .ok () (inside rest offset) := by
  have differs : offset = 0 → (b :: rest).head? ≠ some 0xEF := fun _ same => noMark (Option.some.inj same)
  have taken : takeIf b ⟨b :: rest, none, offset⟩ = .ok true (inside rest offset) := by
    rw [takeIf_eq b differs, skipSpaces_cons space, List.takeWhile_cons, space, List.head?_cons, if_pos rfl]
    rfl
  rw [expect, bind_of_ok taken]
  rfl

end Reading

def Feed.opened (b : UInt8) (feed : Feed) : Feed :=
  if b = 0x7B then { feed with phase := .fields }
  else { feed with bareArray := true, sawEventList := true, phase := .events true }

namespace Feeding

theorem start_opening {feed : Feed} {b : UInt8} (opens : b = 0x7B ∨ b = 0x5B) {rest : List UInt8}
    {offset : Nat} (peeked : peekSignificant feed.input = .ok (some b) ⟨b :: rest, none, offset⟩) :
    start feed = .ok () ((feed.facing rest offset).opened b) := by
  have first : reading peekSignificant feed = .ok (some b) { feed with input := ⟨b :: rest, none, offset⟩ } := by
    simp only [reading, peeked]
  have second : reading (expect b) { feed with input := ⟨b :: rest, none, offset⟩ } =
      .ok () (feed.facing rest offset) := by
    apply reading_ok
    rcases opens with rfl | rfl <;> exact expect_next (by decide) (by decide) rest offset
  rw [start, bind_of_ok first]
  rcases opens with rfl | rfl
  · dsimp only
    rw [if_pos rfl, bind_of_ok second]
    rfl
  · dsimp only
    rw [if_neg (by decide), if_pos rfl, bind_of_ok second]
    rfl

theorem start_found (feed : Feed) (marked : Bool) (before : Blanks) {b : UInt8}
    (opens : b = 0x7B ∨ b = 0x5B) (rest : List UInt8) :
    ∃ offset, start { feed with input := ⟨markBytes marked ++ (before.val ++ b :: rest), none, 0⟩ } =
      .ok () ((feed.facing rest offset).opened b) := by
  have plain : isSpace b = false ∧ b ≠ 0xEF := by rcases opens with rfl | rfl <;> decide
  obtain ⟨offset, passed⟩ := skipMark_found marked (before.unmarked plain.2 rest)
  have peeked := peekSignificant_of_skipMark passed
  rw [skipSpaces_blanks, skipSpaces_cons plain.1] at peeked
  exact ⟨_, start_opening opens peeked⟩

theorem of_start {feed feed' : Feed} {bytes : List UInt8}
    (h : start { feed with input := ⟨bytes, none, 0⟩ } = .ok () feed') :
    ∃ (marked : Bool) (before : Blanks) (b : UInt8) (rest : List UInt8) (offset : Nat),
      (b = 0x7B ∨ b = 0x5B) ∧ bytes = markBytes marked ++ (before.val ++ b :: rest) ∧
        feed' = (feed.facing rest offset).opened b := by
  obtain ⟨head, middle, read, opening⟩ := exists_of_bind_ok h
  obtain ⟨input, peeked, rfl⟩ := exists_input_of_reading read
  obtain ⟨_, settled, skipped, _⟩ := exists_of_bind_ok peeked
  obtain ⟨_, passed, mark, _⟩ := exists_of_bind_ok skipped
  obtain ⟨marked, behind, -, rfl, rfl⟩ := of_skipMark mark
  have again := peekSignificant_of_skipMark mark
  rw [again] at peeked
  injection peeked with head_eq input_eq
  subst head_eq input_eq
  obtain ⟨before, whole⟩ := exists_blanks behind
  cases left : skipSpaces behind with
  | nil =>
    rw [left] at opening
    cases opening
  | cons b rest =>
    rw [left, List.head?_cons] at opening again
    have opens : b = 0x7B ∨ b = 0x5B := by
      by_cases brace : b = 0x7B
      · exact .inl brace
      · by_cases bracket : b = 0x5B
        · exact .inr bracket
        · simp only [brace, bracket, ite_false] at opening
          cases opening
    rw [start_opening opens again] at h
    injection h with _ feed_eq
    exact ⟨marked, before, b, rest, _, opens, by rw [whole, left], feed_eq.symm⟩

end Feeding

end EpcisDigest.Json
