import EpcisDigest.Proofs.Json.Shifted

namespace EpcisDigest.Json

open Feeding

/-- The loop of a pull when nothing bounds its turns: how often its body is run, what comes of it, and the feed that
    it leaves. -/
inductive Loops : Feed → Nat → Except ReadError (Option Item) → Feed → Prop
  | nothing {feed : Feed} (ended : feed.phase = .done) : Loops feed 1 (.ok none) feed
  | failed {feed feed' : Feed} {e : ReadError} (going : feed.phase ≠ .done) (step : turn feed = .error e feed') :
      Loops feed 1 (.error e) feed'.cancel
  | found {feed feed' : Feed} {item : Item} (going : feed.phase ≠ .done) (step : turn feed = .ok (some item) feed') :
      Loops feed 1 (.ok (some item)) feed'
  | again {feed between feed' : Feed} {turns : Nat} {result : Except ReadError (Option Item)}
      (going : feed.phase ≠ .done) (step : turn feed = .ok none between) (loops : Loops between turns result feed') :
      Loops feed (turns + 1) result feed'

/-- All pulls up to the one that finds nothing, also those behind an error, with the turns that they take together. -/
inductive Drained : Feed → List (Except ReadError Item) → Nat → Prop
  | last {feed feed' : Feed} {turns : Nat} (loops : Loops feed turns (.ok none) feed') : Drained feed [] turns
  | item {feed feed' : Feed} {item : Item} {results : List (Except ReadError Item)} {turns more : Nat}
      (loops : Loops feed turns (.ok (some item)) feed') (drained : Drained feed' results more) :
      Drained feed (.ok item :: results) (turns + more)
  | failed {feed feed' : Feed} {e : ReadError} {results : List (Except ReadError Item)} {turns more : Nat}
      (loops : Loops feed turns (.error e) feed') (drained : Drained feed' results more) :
      Drained feed (.error e :: results) (turns + more)

section Turn

variable {feed feed' : Feed} {item : Option Item} (going : feed.phase ≠ .done) (step : turn feed = .ok item feed')

include going step

theorem offset_lt_of_turn : feed.input.offset < feed'.input.offset := by
  obtain ⟨count, some, _, moved⟩ := turn_moves going step
  rw [moved.moved]
  exact Nat.lt_add_of_pos_right some

/-- What is left counts a byte that is read, besides the end. -/
theorem one_lt_left_of_turn : 1 < feed.left := by
  obtain ⟨count, some, _, moved⟩ := turn_moves going step
  have within := moved.within
  rw [Feed.left, if_neg going]
  omega

end Turn

/-- Every pull ends, for each turn of its loop leaves less than was left. -/
theorem exists_loops (feed : Feed) : ∃ turns result feed', Loops feed turns result feed' := by
  induction bound : feed.left using Nat.strongRecOn generalizing feed with
  | ind left ih =>
    by_cases ended : feed.phase = .done
    · exact ⟨1, _, feed, .nothing ended⟩
    · cases step : turn feed with
      | error e feed' => exact ⟨1, _, feed'.cancel, .failed ended step⟩
      | ok item between =>
        cases item with
        | some item => exact ⟨1, _, between, .found ended step⟩
        | none =>
          have fewer := (Feed.left_of_turn ended step).2
          obtain ⟨turns, result, feed', loops⟩ := ih between.left (bound ▸ fewer) between rfl
          exact ⟨turns + 1, result, feed', .again ended step loops⟩

def unpaid : Except ReadError (Option Item) → Nat
  | .ok none => 1
  | .ok (some _) => 0
  | .error _ => 0

namespace Loops

variable {feed feed' : Feed} {turns : Nat} {result : Except ReadError (Option Item)}

/-- The turns that a pull is given are enough for its loop. -/
theorem next_eq (loops : Loops feed turns result feed') (sound : feed.Sound) : feed.next = (result, feed') := by
  induction loops with
  | nothing ended => exact Feed.next_done ended
  | failed going step => rw [Feed.next, pullWithin_succ going, step]
  | found going step => rw [Feed.next, pullWithin_succ going, step]
  | again going step _ ih =>
    obtain ⟨sound', same⟩ := Feed.next_of_turn sound going step
    rw [same, ih sound']

theorem turns_le (loops : Loops feed turns result feed') : turns + feed'.left ≤ feed.left + unpaid result := by
  induction loops with
  | nothing ended =>
    rw [Feed.left_done ended]
    exact Nat.le_refl 1
  | @failed feed feed' e going step =>
    -- Behind an error nothing is left, so that even a turn that read nothing is paid for.
    have ended : feed'.cancel.left = 0 := Feed.left_done rfl
    rw [ended, Feed.left, if_neg going]
    exact Nat.le_add_left 1 _
  | found going step =>
    have fewer := (Feed.left_of_turn going step).2
    dsimp only [unpaid]
    omega
  | again going step _ ih =>
    have fewer := (Feed.left_of_turn going step).2
    omega

theorem turns_pos (loops : Loops feed turns result feed') : 0 < turns := by
  cases loops <;> exact Nat.succ_pos _

theorem left_lt (loops : Loops feed turns result feed') (paid : unpaid result = 0) : feed'.left < feed.left := by
  have most := loops.turns_le
  have once := loops.turns_pos
  omega

theorem one_lt_left {item : Item} (loops : Loops feed turns (.ok (some item)) feed') : 1 < feed.left := by
  cases loops with
  | found going step => exact one_lt_left_of_turn going step
  | again going step loops => exact one_lt_left_of_turn going step

end Loops

theorem exists_drained (feed : Feed) : ∃ results turns, Drained feed results turns := by
  induction bound : feed.left using Nat.strongRecOn generalizing feed with
  | ind left ih =>
    obtain ⟨turns, result, feed', loops⟩ := exists_loops feed
    cases result with
    | error e =>
      obtain ⟨results, more, drained⟩ := ih feed'.left (bound ▸ loops.left_lt rfl) feed' rfl
      exact ⟨_, _, .failed loops drained⟩
    | ok item =>
      cases item with
      | none => exact ⟨[], turns, .last loops⟩
      | some item =>
        obtain ⟨results, more, drained⟩ := ih feed'.left (bound ▸ loops.left_lt rfl) feed' rfl
        exact ⟨_, _, .item loops drained⟩

namespace Drained

variable {feed : Feed} {results : List (Except ReadError Item)} {turns : Nat}

theorem turns_le (drained : Drained feed results turns) : turns ≤ feed.left + 1 := by
  induction drained with
  | last loops => exact Nat.le_trans (Nat.le_add_right _ _) loops.turns_le
  | item loops _ ih =>
    have paid := loops.turns_le
    dsimp only [unpaid] at paid
    omega
  | failed loops _ ih =>
    have paid := loops.turns_le
    dsimp only [unpaid] at paid
    omega

/-- Each item has a byte of its own, the end has none. -/
theorem items_le (drained : Drained feed results turns) : results.countP Except.isOk ≤ feed.left - 1 := by
  induction drained with
  | last loops => exact Nat.zero_le _
  | item loops _ ih =>
    have fewer := loops.left_lt rfl
    have read := loops.one_lt_left
    rw [List.countP_cons_of_pos rfl]
    omega
  | failed loops _ ih =>
    have fewer := loops.left_lt rfl
    rw [List.countP_cons_of_neg Bool.false_ne_true]
    omega

end Drained

namespace Feed

theorem left_next_le (feed : Feed) : feed.next.2.left ≤ feed.left := by
  rw [next]
  split
  · rename_i pulled
    exact (of_pullWithin pulled).2.1
  · exact Nat.le_trans (Nat.le_of_eq (left_done rfl)) (Nat.zero_le _)

theorem left_take_le (feed : Feed) (count : Nat) : (feed.take count).2.left ≤ feed.left := by
  induction count generalizing feed with
  | zero => exact Nat.le_refl _
  | succ count ih =>
    have pulled := feed.left_next_le
    rw [take]
    split
    · rename_i failed
      rw [failed] at pulled
      exact pulled
    · rename_i nothing
      rw [nothing] at pulled
      exact pulled
    · rename_i between found
      rw [found] at pulled
      have rest := Nat.le_trans (ih between) pulled
      split
      · rename_i failed
        rw [failed] at rest
        exact rest
      · rename_i taken
        rw [taken] at rest
        exact rest

theorem left_answer_le (feed : Feed) (call : Call) : (feed.answer call).2.left ≤ feed.left := by
  cases call with
  | next => exact feed.left_next_le
  | request demand =>
    have taken := feed.left_take_le demand.toNat
    rw [answer, request]
    split
    · exact Nat.le_refl _
    · split
      · rename_i failed
        rw [failed] at taken
        exact taken
      · rename_i found
        rw [found] at taken
        exact taken
  | cancel => exact Nat.le_trans (Nat.le_of_eq (left_done rfl)) (Nat.zero_le _)

theorem left_session_le (feed : Feed) (calls : List Call) : (feed.session calls).2.left ≤ feed.left := by
  induction calls generalizing feed with
  | nil => exact Nat.le_refl _
  | cons call calls ih => exact Nat.le_trans (ih _) (feed.left_answer_le call)

/-- Every turn that does not find the walk over reads at least one byte or fails, so that every pull ends without the
    bound on its turns that it is given. The pulls of a source take at most two turns more than it has bytes, and give
    at most one item for each byte. -/
theorem pulls_end (source : Source) (limit : Nat) {calls : List Call} {events : List Event} {feed : Feed}
    (ran : (ofSource source limit).session calls = (events, feed)) :
    (∀ (feed feed' : Feed) (item : Option Item), feed.phase ≠ .done → turn feed = .ok item feed' →
      feed.input.offset < feed'.input.offset) ∧
    (∃ turns, Loops feed turns feed.next.1 feed.next.2) ∧
    (∀ turns result feed', Loops feed turns result feed' → feed.next = (result, feed')) ∧
    (∃ results turns, Drained feed results turns) ∧
    ∀ results turns, Drained feed results turns →
      turns ≤ source.bytes.length + 2 ∧ results.countP Except.isOk ≤ source.bytes.length := by
  have sound := session_sound (ofSource_sound source limit) calls
  have most : _ ≤ source.bytes.length + 1 := left_session_le (ofSource source limit) calls
  rw [ran] at sound most
  dsimp only at sound most
  refine ⟨fun feed feed' item going step => offset_lt_of_turn going step, ?_,
    fun turns result feed' loops => loops.next_eq sound, exists_drained feed, fun results turns drained => ?_⟩
  · obtain ⟨turns, result, feed', loops⟩ := exists_loops feed
    rw [loops.next_eq sound]
    exact ⟨turns, loops⟩
  · have few := drained.turns_le
    have items := drained.items_le
    omega

def strayComma : Source :=
  ⟨Text.bytesOf "[\x7b\"type\":\"ObjectEvent\"\x7d, ,\x7b\"type\":\"", some "reset"⟩

theorem pulls_end_strayComma :
    ∃ events feed, (ofSource strayComma 100).session [.next] = (events, feed) ∧
      (events.flatMap Event.items).length = 1 ∧ feed.isComplete = false ∧
      (∃ turns, Loops feed turns feed.next.1 feed.next.2) ∧
      ∃ results turns, Drained feed results turns ∧ turns ≤ 37 ∧ results.countP Except.isOk ≤ 35 := by
  obtain ⟨_, ends, _, ⟨results, turns, drained⟩, most⟩ := @pulls_end strayComma 100 [.next] _ _ rfl
  exact ⟨_, _, rfl, by decide +kernel, by decide +kernel, ends, results, turns, drained, most results turns drained⟩

end Feed

end EpcisDigest.Json
