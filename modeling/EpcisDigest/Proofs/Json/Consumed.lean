import EpcisDigest.Proofs.Json.Walk

namespace EpcisDigest.Json

section Takes

variable {ε σ α β : Type} {moves : Nat → σ → σ → Prop}

variable (moves) in
/-- Whenever the action succeeds, it moves its state on by at least as much as its result says. -/
def Takes (action : EStateM ε σ α) (least : α → Nat) : Prop :=
  ∀ s a s', action s = .ok a s' → ∃ count, least a ≤ count ∧ moves count s s'

variable {action : EStateM ε σ α} {next : α → EStateM ε σ β}

theorem Takes.weaken {least fewer : α → Nat} (takes : Takes moves action least) (less : ∀ a, fewer a ≤ least a) :
    Takes moves action fewer := by
  intro s a s' h
  obtain ⟨count, enough, moved⟩ := takes s a s' h
  exact ⟨count, Nat.le_trans (less a) enough, moved⟩

theorem Takes.bind (trans : ∀ {count more s between s'}, moves count s between → moves more between s' →
      moves (count + more) s s') {least : α → Nat} {whole : β → Nat} (first : Takes moves action least)
    (second : ∀ a, Takes moves (next a) fun b => whole b - least a) : Takes moves (action >>= next) whole := by
  intro s b s' h
  obtain ⟨a, between, did, rest⟩ := exists_of_bind_ok h
  obtain ⟨count, atLeast, moved⟩ := first _ _ _ did
  obtain ⟨count', atLeast', moved'⟩ := second a _ _ _ rest
  dsimp only at atLeast'
  exact ⟨count + count', by omega, trans moved moved'⟩

end Takes

namespace Input

structure Moves (count : Nat) (input input' : Input) : Prop where
  within : count ≤ input.rest.length
  moved : input' = input.advance count

theorem Moves.refl (input : Input) : Moves 0 input input := ⟨Nat.zero_le _, rfl⟩

theorem Moves.trans {count more : Nat} {input between input' : Input} (first : Moves count input between)
    (second : Moves more between input') : Moves (count + more) input input' := by
  obtain ⟨within, rfl⟩ := first
  obtain ⟨within', rfl⟩ := second
  rw [advance, List.length_drop] at within'
  refine ⟨by omega, ?_⟩
  rw [advance, advance, advance, List.drop_drop, Nat.add_assoc]

theorem Moves.length {count : Nat} {input input' : Input} (moves : Moves count input input') :
    input'.rest.length + count = input.rest.length := by
  obtain ⟨within, rfl⟩ := moves
  rw [advance, List.length_drop]
  omega

end Input

namespace Reading

open Input

theorem takes_pure {α : Type} (a : α) : Takes Moves (pure a : Reading α) fun _ => 0 := by
  intro input found input' h
  injection h with _ input_eq
  subst input_eq
  exact ⟨0, Nat.le_refl 0, .refl input⟩

theorem takes_refuse {α : Type} (reason : Reason) (least : α → Nat) : Takes Moves (refuse reason) least := by
  intro input found input' h
  cases h

theorem takes_peek : Takes Moves peek fun _ => 0 := by
  intro input found input' h
  obtain ⟨rfl, _⟩ := of_peek h
  exact ⟨0, Nat.le_refl 0, .refl _⟩

theorem takes_next : Takes Moves next fun found => if found.isSome then 1 else 0 := by
  intro input found input' h
  obtain ⟨head, between, peeked, skips⟩ := exists_of_bind_ok h
  obtain ⟨rfl, rfl⟩ := of_peek peeked
  cases first : between.rest with
  | nil =>
    rw [first] at skips
    injection skips with found_eq input_eq
    subst found_eq input_eq
    exact ⟨0, Nat.le_refl 0, .refl _⟩
  | cons b rest =>
    rw [first] at skips
    injection skips with found_eq input_eq
    subst found_eq input_eq
    refine ⟨1, Nat.le_refl 1, ?_, rfl⟩
    rw [first]
    exact Nat.succ_pos _

theorem takes_takeMark (mark : List UInt8) : Takes Moves (takeMark mark) fun _ => 0 := by
  induction mark with
  | nil => exact takes_pure ()
  | cons wanted mark ih =>
    refine takes_next.bind Moves.trans fun found => ?_
    split
    · exact ih.weaken fun _ => Nat.sub_le _ _
    · exact takes_refuse _ _

theorem takes_get : Takes Moves (get : Reading Input) fun _ => 0 := by
  intro input found input' h
  injection h with _ input_eq
  subst input_eq
  exact ⟨0, Nat.le_refl 0, .refl input⟩

theorem takes_skipMark : Takes Moves skipMark fun _ => 0 := by
  refine takes_get.bind Moves.trans fun input => ?_
  split
  · refine (takes_peek.bind Moves.trans fun found => ?_)
    split
    · exact takes_takeMark _
    · exact takes_pure _
  · exact takes_pure _

theorem takes_skipBlanks : Takes Moves skipBlanks fun _ => 0 := by
  intro input found input' h
  obtain ⟨_, marked, skipped, gets⟩ := exists_of_bind_ok h
  obtain ⟨_, _, got, skips⟩ := exists_of_bind_ok gets
  injection got with same same'
  subst same same'
  obtain ⟨_, passed, blanks, peeks⟩ := exists_of_bind_ok skips
  injection blanks with _ passed_eq
  obtain ⟨_, settled, peeked, ends⟩ := exists_of_bind_ok peeks
  obtain ⟨settled_eq, _⟩ := of_peek peeked
  injection ends with _ input_eq
  subst passed_eq settled_eq input_eq
  obtain ⟨count, _, moved⟩ := takes_skipMark _ _ _ skipped
  have within : (marked.rest.takeWhile isSpace).length ≤ marked.rest.length :=
    (List.takeWhile_prefix isSpace).length_le
  exact ⟨_, Nat.zero_le _, moved.trans ⟨within, rfl⟩⟩

theorem takes_peekSignificant : Takes Moves peekSignificant fun _ => 0 :=
  takes_skipBlanks.bind Moves.trans fun _ => takes_peek

theorem of_peekSignificant {input input' : Input} {found : Option UInt8}
    (h : peekSignificant input = .ok found input') : found = input'.rest.head? := by
  obtain ⟨_, passed, _, peeked⟩ := exists_of_bind_ok h
  obtain ⟨rfl, rfl⟩ := of_peek peeked
  rfl

theorem takes_takeIf (wanted : UInt8) : Takes Moves (takeIf wanted) fun found => if found then 1 else 0 := by
  intro input found input' h
  obtain ⟨head, between, peeked, h⟩ := exists_of_bind_ok h
  obtain ⟨count, _, moved⟩ := takes_peekSignificant _ _ _ peeked
  have head_eq := of_peekSignificant peeked
  by_cases same : head = some wanted
  · rw [if_pos same] at h
    injection h with found_eq input_eq
    subst found_eq input_eq
    refine ⟨count + 1, Nat.le_add_left _ _, moved.trans ⟨?_, rfl⟩⟩
    obtain ⟨rest, present⟩ := List.head?_eq_some_iff.mp (head_eq.symm.trans same)
    rw [present]
    exact Nat.succ_pos _
  · rw [if_neg same] at h
    injection h with found_eq input_eq
    subst found_eq input_eq
    exact ⟨count, Nat.zero_le _, moved⟩

theorem takes_expect (wanted : UInt8) : Takes Moves (expect wanted) fun _ => 1 := by
  refine (takes_takeIf wanted).bind Moves.trans fun found => ?_
  cases found with
  | true => exact (takes_pure ()).weaken fun _ => Nat.le_refl 0
  | false => exact takes_peek.bind Moves.trans fun found => takes_refuse _ _

theorem takes_stringBody : Takes Moves stringBody fun _ => 0 := by
  intro input text input' h
  rw [stringBody] at h
  split at h
  · rename_i closed
    injection h with _ input_eq
    subst input_eq
    obtain ⟨string, rest, split, _, rfl⟩ := exists_writtenString_of_closed closed
    refine ⟨_, Nat.zero_le _, ?_, rfl⟩
    rw [split, List.length_append, List.length_cons]
    omega
  · cases h
  · obtain ⟨_, _, _, refused⟩ := exists_of_bind_ok h
    cases refused

theorem takes_readString : Takes Moves readString fun _ => 1 :=
  (takes_expect _).bind Moves.trans fun _ => takes_stringBody

theorem extentFrom_complete {limit : Nat} {measuring : Measuring} {length found : Nat} {bytes : List UInt8}
    (h : extentFrom limit measuring length bytes = .complete found) : found ≤ length + bytes.length := by
  induction bytes generalizing measuring length with
  | nil =>
    rw [extentFrom] at h
    cases h
  | cons b bytes ih =>
    rw [List.length_cons]
    rcases extentFrom_cons_cases limit measuring length b with ⟨size, small, ends⟩ | beyond | ⟨next, leads⟩
    · injection (ends bytes).symm.trans h with same
      omega
    · cases (beyond bytes).symm.trans h
    · have below := ih ((leads bytes).symm.trans h)
      omega

theorem extent_complete {limit found : Nat} {bytes : List UInt8} (h : extent limit bytes = .complete found) :
    found ≤ bytes.length := by
  cases bytes with
  | nil => cases h
  | cons b bytes =>
    rcases extent_cons_cases limit b with string | ⟨measuring, other⟩
    · have within := extentFrom_complete ((string bytes).symm.trans h)
      rw [List.length_cons]
      omega
    · have within := extentFrom_complete ((other bytes).symm.trans h)
      omega

theorem takes_captured (limit : Nat) : Takes Moves (captured limit) fun taken => taken.length := by
  intro input taken input' h
  rw [captured] at h
  split at h
  · rename_i length measured
    injection h with taken_eq input_eq
    subst taken_eq input_eq
    exact ⟨length, List.length_take_le _ _, extent_complete measured, rfl⟩
  · cases h
  · rename_i length measured
    have all := extent_unfinished measured
    split at h
    · obtain ⟨_, between, peeked, h⟩ := exists_of_bind_ok h
      obtain ⟨rfl, _⟩ := of_peek peeked
      injection h with taken_eq input_eq
      subst taken_eq input_eq
      exact ⟨length, Nat.le_of_eq all.symm, Nat.le_of_eq all, rfl⟩
    · obtain ⟨_, _, _, refused⟩ := exists_of_bind_ok h
      cases refused

theorem takes_capture (limit : Nat) : Takes Moves (capture limit) fun taken => taken.length := by
  refine takes_peekSignificant.bind Moves.trans fun found => ?_
  split
  · exact takes_refuse _ _
  · exact takes_captured limit

end Reading

namespace Feed

@[simp] theorem setLevel_input (feed : Feed) (level : Level) : (feed.setLevel level).input = feed.input := by
  obtain ⟨input, size, limit, phase, header, inner, saw, bare⟩ := feed
  cases inner <;> rfl

end Feed

structure Feed.Moves (count : Nat) (feed feed' : Feed) : Prop where
  size : feed'.size = feed.size
  input : Input.Moves count feed.input feed'.input

namespace Feed.Moves

theorem refl (feed : Feed) : Feed.Moves 0 feed feed := ⟨rfl, .refl _⟩

theorem trans {count more : Nat} {feed between feed' : Feed} (first : Feed.Moves count feed between)
    (second : Feed.Moves more between feed') : Feed.Moves (count + more) feed feed' :=
  ⟨second.size.trans first.size, first.input.trans second.input⟩

end Feed.Moves

namespace Feeding

open Feed (Moves)

theorem takes_reading {α : Type} {action : Reading α} {least : α → Nat} (takes : Takes Input.Moves action least) :
    Takes Moves (reading action) least := by
  intro feed found feed' h
  obtain ⟨input, read, rfl⟩ := exists_input_of_reading h
  obtain ⟨count, enough, moved⟩ := takes _ _ _ read
  exact ⟨count, enough, rfl, moved⟩

theorem takes_pure {α : Type} (a : α) : Takes Moves (pure a : Feeding α) fun _ => 0 := by
  intro feed found feed' h
  injection h with _ feed_eq
  subst feed_eq
  exact ⟨0, Nat.le_refl 0, .refl feed⟩

theorem takes_throw {α : Type} (e : ReadError) (least : α → Nat) : Takes Moves (throw e : Feeding α) least := by
  intro feed found feed' h
  cases h

theorem takes_get : Takes Moves (get : Feeding Feed) fun _ => 0 := by
  intro feed found feed' h
  injection h with _ feed_eq
  subst feed_eq
  exact ⟨0, Nat.le_refl 0, .refl feed⟩

theorem takes_modify {change : Feed → Feed} (size : ∀ feed, (change feed).size = feed.size)
    (input : ∀ feed, (change feed).input = feed.input) : Takes Moves (modify change : Feeding Unit) fun _ => 0 := by
  intro feed found feed' h
  injection h with _ feed_eq
  subst feed_eq
  refine ⟨0, Nat.le_refl 0, size feed, ?_⟩
  rw [input feed]
  exact .refl _

theorem takes_setPhase (phase : Phase) : Takes Moves (setPhase phase) fun _ => 0 :=
  takes_modify (fun _ => rfl) fun _ => rfl

theorem takes_finish : Takes Moves finish fun _ => 0 := by
  refine (takes_reading Reading.takes_peekSignificant).bind Moves.trans fun found => ?_
  dsimp only
  split
  · intro feed item feed' h
    cases h
  · refine (takes_setPhase .done).bind Moves.trans fun _ => takes_get.bind Moves.trans fun feed => ?_
    split
    · exact takes_pure _
    · split
      · exact takes_pure _
      · split <;> exact takes_pure _

theorem takes_leave : Takes Moves leave fun _ => 0 := by
  intro feed item feed' h
  obtain ⟨input, size, limit, phase, header, inner, saw, bare⟩ := feed
  cases inner with
  | nil => exact takes_finish _ item feed' h
  | cons entry outer =>
    injection h with _ feed_eq
    subst feed_eq
    refine ⟨0, Nat.le_refl 0, Feed.setLevel_size _ _, ?_⟩
    rw [Feed.store, Feed.setLevel_input]
    exact .refl _

theorem takes_separate : Takes Moves separate fun _ => 0 := by
  intro feed found feed' h
  have begun : feed.Moves 0 feed.begun := by
    refine ⟨Feed.setLevel_size _ _, ?_⟩
    rw [Feed.begun, Feed.setLevel_input]
    exact .refl _
  rw [separate_eq] at h
  split at h
  · injection h with _ feed_eq
    subst feed_eq
    exact ⟨0, Nat.le_refl 0, begun⟩
  · obtain ⟨count, _, moved⟩ := takes_reading (Reading.takes_expect _) _ _ _ h
    exact ⟨0 + count, Nat.zero_le _, begun.trans moved⟩

theorem takes_enter (enters : Prop) [Decidable enters] (wanted : UInt8) :
    Takes Moves (if enters then reading (Reading.takeIf wanted) else pure false) fun _ => 0 := by
  split
  · exact (takes_reading (Reading.takes_takeIf wanted)).weaken fun _ => Nat.zero_le _
  · exact takes_pure _

theorem takes_heldValue : Takes Moves heldValue fun _ => 1 := by
  refine takes_get.bind Moves.trans fun feed => ?_
  refine (takes_reading (Reading.takes_capture feed.limit)).bind Moves.trans fun taken => ?_
  cases parsed : parse? taken with
  | none => exact takes_throw _ _
  | some value =>
    have present : 0 < taken.length := by
      cases taken with
      | nil => cases parsed
      | cons b rest => exact Nat.succ_pos _
    refine (takes_pure value).weaken fun _ => ?_
    omega

theorem takes_fieldValue (name : String) : Takes Moves (fieldValue name) fun _ => 0 := by
  refine (takes_enter (name = "eventList") 0x5B).bind Moves.trans fun found => ?_
  split
  · refine (takes_modify ?_ ?_).bind Moves.trans fun _ => takes_pure _
    · exact fun _ => rfl
    · exact fun _ => rfl
  · refine (takes_enter (bodyContainers.contains name = true) 0x7B).bind Moves.trans fun found => ?_
    split
    · refine (takes_modify ?_ ?_).bind Moves.trans fun _ => takes_pure _
      · exact fun _ => rfl
      · exact fun _ => rfl
    · refine (takes_heldValue.weaken fun _ => Nat.zero_le _).bind Moves.trans fun value => ?_
      refine (takes_modify ?_ ?_).bind Moves.trans fun _ => takes_pure _
      · exact fun feed => Feed.setLevel_size _ _
      · exact fun feed => Feed.setLevel_input _ _

theorem takes_field : Takes Moves field fun _ => 1 := by
  rw [field_eq]
  refine (takes_reading (Reading.takes_takeIf 0x7D)).bind Moves.trans fun found => ?_
  cases found with
  | true => exact takes_leave
  | false =>
    refine takes_separate.bind Moves.trans fun _ => ?_
    refine (takes_reading Reading.takes_readString).bind Moves.trans fun name => ?_
    refine ((takes_reading (Reading.takes_expect 0x3A)).weaken fun _ => Nat.zero_le _).bind Moves.trans fun _ => ?_
    exact takes_fieldValue name

theorem takes_element : Takes Moves element fun _ => 1 := by
  refine (takes_setPhase _).bind Moves.trans fun _ => takes_heldValue.bind Moves.trans fun value => ?_
  exact takes_pure _

theorem takes_entry (first : Bool) : Takes Moves (entry first) fun _ => 1 := by
  refine (takes_reading (Reading.takes_takeIf 0x5D)).bind Moves.trans fun found => ?_
  cases found with
  | true =>
    refine takes_get.bind Moves.trans fun feed => ?_
    split
    · exact takes_finish
    · exact (takes_setPhase _).bind Moves.trans fun _ => takes_pure _
  | false =>
    cases first with
    | true => exact takes_element
    | false =>
      refine ((takes_reading (Reading.takes_expect 0x2C)).weaken fun _ => Nat.zero_le _).bind Moves.trans fun _ => ?_
      exact takes_element

theorem takes_start : Takes Moves start fun _ => 1 := by
  refine (takes_reading Reading.takes_peekSignificant).bind Moves.trans fun found => ?_
  cases found with
  | none => exact takes_reading (Reading.takes_refuse _ _)
  | some b =>
    dsimp only
    split
    · exact (takes_reading (Reading.takes_expect _)).bind Moves.trans fun _ => takes_setPhase _
    · split
      · refine (takes_reading (Reading.takes_expect _)).bind Moves.trans fun _ => takes_modify ?_ ?_
        · exact fun _ => rfl
        · exact fun _ => rfl
      · exact takes_get.bind Moves.trans fun feed => takes_throw _ _

/-- Every step of a walk that is not over reads at least one byte. -/
theorem turn_moves {feed feed' : Feed} {item : Option Item} (notDone : feed.phase ≠ .done)
    (h : turn feed = .ok item feed') : ∃ count, 1 ≤ count ∧ feed.Moves count feed' := by
  cases phase : feed.phase with
  | start => exact takes_start _ _ _ (of_turn_start phase h).2
  | fields => exact takes_field _ _ _ ((turn_fields phase).symm.trans h)
  | events first => exact takes_entry first _ _ _ ((turn_events phase).symm.trans h)
  | done => exact absurd phase notDone

end Feeding

open Feeding

namespace Feed

theorem left_done {feed : Feed} (ended : feed.phase = .done) : feed.left = 0 := if_pos ended

theorem left_of_turn {feed feed' : Feed} {item : Option Item} (notDone : feed.phase ≠ .done)
    (h : turn feed = .ok item feed') : feed'.size = feed.size ∧ feed'.left < feed.left := by
  obtain ⟨count, some, size, moved⟩ := turn_moves notDone h
  have fewer := moved.length
  have less : feed'.left ≤ feed'.input.rest.length + 1 := by
    rw [left]
    split <;> omega
  have own : feed.left = feed.input.rest.length + 1 := if_neg notDone
  exact ⟨size, by omega⟩

/-- A pull that has enough turns gives nothing only when the walk is over. -/
theorem of_pullWithin {turns : Nat} {feed feed' : Feed} {item : Option Item}
    (h : pullWithin turns feed = .ok item feed') :
    feed'.size = feed.size ∧ feed'.left ≤ feed.left ∧ (feed.left ≤ turns → item = none → feed'.phase = .done) := by
  induction turns generalizing feed with
  | zero =>
    injection h with item_eq feed_eq
    subst item_eq feed_eq
    refine ⟨rfl, Nat.le_refl _, fun enough _ => ?_⟩
    apply Decidable.byContradiction
    intro notDone
    rw [left, if_neg notDone] at enough
    omega
  | succ turns ih =>
    by_cases ended : feed.phase = .done
    · rw [pullWithin_done ended] at h
      injection h with item_eq feed_eq
      subst item_eq feed_eq
      exact ⟨rfl, Nat.le_refl _, fun _ _ => ended⟩
    · rw [pullWithin_succ ended] at h
      cases step : turn feed with
      | error e between =>
        rw [step] at h
        cases h
      | ok found between =>
        rw [step] at h
        -- Every turn reads a byte, so that as many turns as bytes are left are enough.
        obtain ⟨size, fewer⟩ := left_of_turn ended step
        cases found with
        | some found =>
          injection h with item_eq feed_eq
          subst item_eq feed_eq
          exact ⟨size, Nat.le_of_lt fewer, fun _ nothing => by cases nothing⟩
        | none =>
          obtain ⟨size', fewer', ends⟩ := ih h
          exact ⟨size'.trans size, by omega, fun enough => ends (by omega)⟩

end Feed

end EpcisDigest.Json
