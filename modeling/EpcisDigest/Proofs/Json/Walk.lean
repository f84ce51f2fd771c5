import EpcisDigest.Proofs.Json.Start

namespace EpcisDigest.Json

open Reading Input

inductive Turned (feed : Feed) : List UInt8 → Option Item → Feed → Prop
  | close {name : String} {level : Level} {outer : List (String × Level)} (phase : feed.phase = .fields)
      (inside : feed.inner = (name, level) :: outer) (blank : Blanks) (rest : List UInt8) (offset : Nat) :
      Turned feed (blank.val ++ 0x7D :: rest) none
        ((Feed.store name (.object level.stored) { feed with inner := outer }).facing rest offset)
  | finish (phase : feed.phase = .fields) (outermost : feed.inner = []) (blank after : Blanks) (offset : Nat) :
      Turned feed (blank.val ++ 0x7D :: after.val) feed.closing { feed.facing [] offset with phase := .done }
  | events (phase : feed.phase = .fields) (blank : Blanks) (name : Padded WrittenString) (before : Blanks)
      (rest : List UInt8) (offset : Nat) :
      Turned feed
        (blank.val ++ (separator feed.level.first ++ (nameBytes name ++ (before.val ++ 0x5B :: rest)))) none
        { feed.begun.facing rest offset with sawEventList := true, phase := .events true }
  | container (phase : feed.phase = .fields) (blank : Blanks) (name : Padded WrittenString) (before : Blanks)
      (rest : List UInt8) (offset : Nat) :
      Turned feed
        (blank.val ++ (separator feed.level.first ++ (nameBytes name ++ (before.val ++ 0x7B :: rest)))) none
        { feed.begun.facing rest offset with inner := (name.inner.text, ⟨[], true⟩) :: feed.begun.inner }
  | held (phase : feed.phase = .fields) (blank : Blanks) (name : Padded WrittenString) (before after : Blanks)
      (written : Written) (rest : List UInt8) (offset : Nat) :
      Turned feed
        (blank.val ++ (separator feed.level.first ++ (nameBytes name ++ (before.val ++ (written.bytes ++
          (after.val ++ rest)))))) none
        ((feed.begun.store name.inner.text written.value).facing rest offset)
  | listEnd {first : Bool} (phase : feed.phase = .events first) (listed : feed.bareArray = false)
      (blank : Blanks) (rest : List UInt8) (offset : Nat) :
      Turned feed (blank.val ++ 0x5D :: rest) none { feed.facing rest offset with phase := .fields }
  | arrayEnd {first : Bool} (phase : feed.phase = .events first) (bare : feed.bareArray = true)
      (blank after : Blanks) (offset : Nat) :
      Turned feed (blank.val ++ 0x5D :: after.val) feed.closing { feed.facing [] offset with phase := .done }
  | element {first : Bool} (phase : feed.phase = .events first) (blank before after : Blanks)
      (written : Written) (rest : List UInt8) (offset : Nat) :
      Turned feed
        (blank.val ++ (separator first ++ (before.val ++ (written.bytes ++ (after.val ++ rest)))))
        (Feeding.yielded written) { feed.facing rest offset with phase := .events false }

namespace Feeding

theorem leave_close {feed : Feed} {name : String} {level : Level} {outer : List (String × Level)}
    (inside : feed.inner = (name, level) :: outer) (bytes : List UInt8) (offset : Nat) :
    leave (feed.facing bytes offset) =
      .ok none ((Feed.store name (.object level.stored) { feed with inner := outer }).facing bytes offset) := by
  obtain ⟨input, size, limit, phase, header, inner, saw, bare⟩ := feed
  subst inside
  rw [← Feed.facing_store]
  rfl

theorem leave_outermost {feed : Feed} (outermost : feed.inner = []) (bytes : List UInt8) (offset : Nat) :
    leave (feed.facing bytes offset) = finish (feed.facing bytes offset) := by
  obtain ⟨input, size, limit, phase, header, inner, saw, bare⟩ := feed
  subst outermost
  rfl

theorem turn_fields {feed : Feed} (phase : feed.phase = .fields) : turn feed = field feed := by
  simp only [turn, bind, EStateM.bind, get_apply, phase]

theorem turn_events {feed : Feed} {first : Bool} (phase : feed.phase = .events first) :
    turn feed = entry first feed := by
  simp only [turn, bind, EStateM.bind, get_apply, phase]

theorem turn_start {feed feed' : Feed} (phase : feed.phase = .start) (started : start feed = .ok () feed') :
    turn feed = .ok none feed' := by
  simp only [turn, bind, EStateM.bind, get_apply, phase, started, pure,
    EStateM.pure]

theorem of_turn_start {feed feed' : Feed} {item : Option Item} (phase : feed.phase = .start)
    (h : turn feed = .ok item feed') : item = none ∧ start feed = .ok () feed' := by
  simp only [turn, bind, EStateM.bind, get_apply, phase] at h
  split at h
  · rename_i started
    injection h with item_eq feed_eq
    subst feed_eq
    exact ⟨item_eq.symm, started⟩
  · cases h

theorem turned_of_field {feed feed' : Feed} {bytes : List UInt8} {offset : Nat} {item : Option Item}
    (phase : feed.phase = .fields) (h : field (feed.facing bytes offset) = .ok item feed') :
    Turned feed bytes item feed' := by
  rcases of_field h with ⟨blank, rest, offset', rfl, left⟩ | ⟨blank, name, rest, offset', rfl, valued⟩
  · cases inside : feed.inner with
    | nil =>
      rw [leave_outermost inside] at left
      obtain ⟨after, offset'', rfl, rfl, rfl⟩ := of_finish left
      exact .finish phase inside blank after offset''
    | cons entry outer =>
      obtain ⟨name, level⟩ := entry
      rw [leave_close inside] at left
      injection left with item_eq feed_eq
      subst item_eq feed_eq
      exact .close phase inside blank rest offset'
  · obtain ⟨rfl, events | container | held⟩ := of_fieldValue valued
    · obtain ⟨before, behind, offset'', rfl, rfl⟩ := events
      exact .events phase blank name before behind offset''
    · obtain ⟨before, behind, offset'', rfl, rfl⟩ := container
      exact .container phase blank name before behind offset''
    · obtain ⟨before, after, written, behind, offset'', rfl, rfl⟩ := held
      exact .held phase blank name before after written behind offset''

theorem turned_of_entry {feed feed' : Feed} {first : Bool} {bytes : List UInt8} {offset : Nat}
    {item : Option Item} (phase : feed.phase = .events first)
    (h : entry first (feed.facing bytes offset) = .ok item feed') : Turned feed bytes item feed' := by
  rcases of_entry h with ⟨blank, rest, offset', rfl, ended⟩ |
    ⟨blank, before, after, written, rest, offset', rfl, rfl, rfl⟩
  · cases bare : feed.bareArray with
    | true =>
      rw [bare, if_pos rfl] at ended
      obtain ⟨after, offset'', rfl, rfl, rfl⟩ := of_finish ended
      exact .arrayEnd phase bare blank after offset''
    | false =>
      rw [bare, if_neg Bool.false_ne_true] at ended
      injection ended with item_eq feed_eq
      subst item_eq feed_eq
      exact .listEnd phase bare blank rest offset'
  · exact .element phase blank before after written rest offset'

end Feeding

def Phase.IsOpen (phase : Phase) : Prop := phase = .fields ∨ ∃ first, phase = .events first

theorem turned_of_turn {feed feed' : Feed} {bytes : List UInt8} {offset : Nat} {item : Option Item}
    (isOpen : feed.phase.IsOpen) (h : Feeding.turn (feed.facing bytes offset) = .ok item feed') :
    Turned feed bytes item feed' := by
  rcases isOpen with phase | ⟨first, phase⟩
  · have fields : (feed.facing bytes offset).phase = .fields := phase
    rw [Feeding.turn_fields fields] at h
    exact Feeding.turned_of_field phase h
  · have events : (feed.facing bytes offset).phase = .events first := phase
    rw [Feeding.turn_events events] at h
    exact Feeding.turned_of_entry phase h

namespace Feed

@[simp] theorem setLevel_phase (feed : Feed) (level : Level) : (feed.setLevel level).phase = feed.phase := by
  obtain ⟨input, size, limit, phase, header, inner, saw, bare⟩ := feed
  cases inner <;> rfl

@[simp] theorem setLevel_size (feed : Feed) (level : Level) : (feed.setLevel level).size = feed.size := by
  obtain ⟨input, size, limit, phase, header, inner, saw, bare⟩ := feed
  cases inner <;> rfl

@[simp] theorem setLevel_limit (feed : Feed) (level : Level) : (feed.setLevel level).limit = feed.limit := by
  obtain ⟨input, size, limit, phase, header, inner, saw, bare⟩ := feed
  cases inner <;> rfl

@[simp] theorem setLevel_bareArray (feed : Feed) (level : Level) :
    (feed.setLevel level).bareArray = feed.bareArray := by
  obtain ⟨input, size, limit, phase, header, inner, saw, bare⟩ := feed
  cases inner <;> rfl

end Feed

def Feed.left (feed : Feed) : Nat := if feed.phase = .done then 0 else feed.input.rest.length + 1

theorem Feed.left_open {feed : Feed} (isOpen : feed.phase.IsOpen) {rest : List UInt8} {offset : Nat}
    (facing : feed.input = inside rest offset) : feed.left = rest.length + 1 := by
  have notDone : feed.phase ≠ .done := by
    rcases isOpen with phase | ⟨first, phase⟩ <;> (rw [phase]; exact fun h => by cases h)
  rw [Feed.left, if_neg notDone, facing, inside]

inductive Feed.Ready (feed : Feed) : Prop
  | done (phase : feed.phase = .done)
  | atStart (phase : feed.phase = .start) (bytes : List UInt8) (unread : feed.input = ⟨bytes, none, 0⟩)
  | begun (phase : feed.phase.IsOpen) (rest : List UInt8) (offset : Nat) (facing : feed.input = inside rest offset)

theorem Turned.progress {feed feed' : Feed} {bytes : List UInt8} {item : Option Item}
    (turned : Turned feed bytes item feed') :
    feed'.Ready ∧ feed'.size = feed.size ∧ feed'.left < bytes.length + 1 := by
  have closed : ∀ offset, Feed.Ready { feed.facing [] offset with phase := .done } ∧
      { feed.facing [] offset with phase := .done }.size = feed.size ∧
      Feed.left { feed.facing [] offset with phase := .done } < bytes.length + 1 := by
    intro offset
    exact ⟨.done rfl, rfl, Nat.succ_pos _⟩
  have continued : ∀ feed' : Feed, feed'.phase.IsOpen → feed'.size = feed.size → ∀ rest offset,
      feed'.input = inside rest offset → rest.length < bytes.length →
      feed'.Ready ∧ feed'.size = feed.size ∧ feed'.left < bytes.length + 1 := by
    intro feed' isOpen size rest offset facing shorter
    refine ⟨.begun isOpen rest offset facing, size, ?_⟩
    rw [Feed.left_open isOpen facing]
    omega
  cases turned with
  | close phase inner blank rest offset =>
    refine continued _ (.inl ?_) ?_ rest offset rfl ?_
    · exact (Feed.setLevel_phase _ _).trans phase
    · exact Feed.setLevel_size _ _
    · simp only [List.length_append, List.length_cons]
      omega
  | finish phase outermost blank after offset => exact closed offset
  | events phase blank name before rest offset =>
    refine continued _ (.inr ⟨true, rfl⟩) (Feed.setLevel_size _ _) rest offset rfl ?_
    simp only [List.length_append, List.length_cons]
    omega
  | container phase blank name before rest offset =>
    refine continued _ (.inl ((Feed.setLevel_phase _ _).trans phase)) (Feed.setLevel_size _ _) rest offset rfl ?_
    simp only [List.length_append, List.length_cons]
    omega
  | held phase blank name before after written rest offset =>
    have positive := written.bytes_length_pos
    refine continued _ (.inl ?_) ?_ rest offset rfl ?_
    · exact ((Feed.setLevel_phase _ _).trans (Feed.setLevel_phase _ _)).trans phase
    · exact (Feed.setLevel_size _ _).trans (Feed.setLevel_size _ _)
    · simp only [List.length_append]
      omega
  | listEnd phase listed blank rest offset =>
    refine continued _ (.inl rfl) rfl rest offset rfl ?_
    simp only [List.length_append, List.length_cons]
    omega
  | arrayEnd phase bare blank after offset => exact closed offset
  | element phase blank before after written rest offset =>
    have positive := written.bytes_length_pos
    refine continued _ (.inr ⟨false, rfl⟩) rfl rest offset rfl ?_
    simp only [List.length_append]
    omega

namespace Feed

theorem opened_isOpen (b : UInt8) (feed : Feed) : (feed.opened b).phase.IsOpen := by
  unfold opened
  split
  · exact .inl rfl
  · exact .inr ⟨true, rfl⟩

theorem opened_input (b : UInt8) (feed : Feed) : (feed.opened b).input = feed.input := by
  unfold opened
  split <;> rfl

theorem opened_size (b : UInt8) (feed : Feed) : (feed.opened b).size = feed.size := by
  unfold opened
  split <;> rfl

/-- Every step of a walk that is not over brings its end nearer. -/
theorem Ready.progress {feed feed' : Feed} {item : Option Item} (ready : feed.Ready)
    (notDone : feed.phase ≠ .done) (h : Feeding.turn feed = .ok item feed') :
    feed'.Ready ∧ feed'.size = feed.size ∧ feed'.left < feed.left := by
  cases ready with
  | done phase => exact absurd phase notDone
  | atStart phase bytes unread =>
    obtain ⟨rfl, started⟩ := Feeding.of_turn_start phase h
    have unread' : Feeding.start { feed with input := ⟨bytes, none, 0⟩ } = .ok () feed' := by
      rw [← unread]
      exact started
    obtain ⟨marked, before, b, rest, offset, opens, rfl, rfl⟩ := Feeding.of_start unread'
    have isOpen := opened_isOpen b (feed.facing rest offset)
    have facing := opened_input b (feed.facing rest offset)
    refine ⟨.begun isOpen rest offset facing, opened_size b _, ?_⟩
    rw [left_open isOpen facing, left, if_neg notDone, unread]
    simp only [List.length_append, List.length_cons]
    omega
  | begun isOpen rest offset facing =>
    obtain ⟨input, size, limit, phase, header, inner, saw, bare⟩ := feed
    subst facing
    have progress := (turned_of_turn isOpen h).progress
    rw [left_open isOpen rfl]
    exact progress

end Feed

inductive Walks : Feed → List Item → Prop
  | done {feed : Feed} (ended : feed.phase = .done) : Walks feed []
  | turn {feed feed' : Feed} {item : Option Item} {items : List Item} (notDone : feed.phase ≠ .done)
      (step : Feeding.turn feed = .ok item feed') (walks : Walks feed' items) :
      Walks feed (item.toList ++ items)

inductive Drains : Feed → List Item → Prop
  | done {feed feed' : Feed} (nothing : feed.next = (.ok none, feed')) : Drains feed []
  | item {feed feed' : Feed} {item : Item} {items : List Item} (pulled : feed.next = (.ok (some item), feed'))
      (drains : Drains feed' items) : Drains feed (item :: items)

namespace Feeding

theorem pullWithin_done {feed : Feed} (ended : feed.phase = .done) (turns : Nat) :
    pullWithin turns feed = .ok none feed := by
  cases turns with
  | zero => rfl
  | succ turns =>
    have complete : feed.isComplete = true := decide_eq_true ended
    simp only [pullWithin, bind, EStateM.bind, get_apply, complete, ite_true,
      pure, EStateM.pure]

theorem pullWithin_succ {feed : Feed} (notDone : feed.phase ≠ .done) (turns : Nat) :
    pullWithin (turns + 1) feed =
      match turn feed with
      | .ok (some item) feed' => .ok (some item) feed'
      | .ok none feed' => pullWithin turns feed'
      | .error e feed' => .error e feed' := by
  have incomplete : feed.isComplete = false := decide_eq_false notDone
  simp only [pullWithin, bind, EStateM.bind, get_apply, incomplete,
    Bool.false_eq_true, ite_false]
  cases turn feed with
  | ok item feed' => cases item <;> rfl
  | error e feed' => rfl

end Feeding

open Feeding

/-- With enough turns a pull is a part of the walk, and ends it when it gives nothing. -/
theorem walks_of_pullWithin {feed feed' : Feed} (ready : feed.Ready) {turns : Nat} (enough : feed.left ≤ turns)
    {item : Option Item} (h : pullWithin turns feed = .ok item feed') :
    (feed'.Ready ∧ feed'.size = feed.size ∧ feed'.left ≤ feed.left) ∧ (item = none → feed'.phase = .done) ∧
      ∀ items, Walks feed' items → Walks feed (item.toList ++ items) := by
  induction turns generalizing feed with
  | zero =>
    injection h with item_eq feed_eq
    subst item_eq feed_eq
    have ended : feed.phase = .done := by
      rcases Decidable.em (feed.phase = .done) with ended | notDone
      · exact ended
      · rw [Feed.left, if_neg notDone] at enough
        omega
    exact ⟨⟨ready, rfl, Nat.le_refl _⟩, fun _ => ended, fun items walks => walks⟩
  | succ turns ih =>
    rcases Decidable.em (feed.phase = .done) with ended | notDone
    · rw [pullWithin_done ended] at h
      injection h with item_eq feed_eq
      subst item_eq feed_eq
      exact ⟨⟨ready, rfl, Nat.le_refl _⟩, fun _ => ended, fun items walks => walks⟩
    · rw [pullWithin_succ notDone] at h
      cases step : turn feed with
      | error e between =>
        rw [step] at h
        cases h
      | ok found between =>
        rw [step] at h
        obtain ⟨ready', size, fewer⟩ := ready.progress notDone step
        cases found with
        | some found =>
          injection h with item_eq feed_eq
          subst item_eq feed_eq
          refine ⟨⟨ready', size, Nat.le_of_lt fewer⟩, (fun nothing => by cases nothing), fun items walks => ?_⟩
          exact .turn notDone step walks
        | none =>
          obtain ⟨⟨ready'', size', fewer'⟩, ends, joins⟩ := ih ready' (by omega) h
          refine ⟨⟨ready'', size'.trans size, by omega⟩, ends, fun items walks => ?_⟩
          have joined : Walks feed ((none : Option Item).toList ++ (item.toList ++ items)) :=
            .turn notDone step (joins items walks)
          exact joined

theorem pullWithin_of_walks {feed : Feed} {items : List Item} (walks : Walks feed items) (ready : feed.Ready)
    {turns : Nat} (enough : feed.left ≤ turns) :
    (items = [] ∧ ∃ feed', pullWithin turns feed = .ok none feed') ∨
      ∃ item others feed', items = item :: others ∧ pullWithin turns feed = .ok (some item) feed' ∧
        Walks feed' others := by
  induction walks generalizing turns with
  | done ended => exact .inl ⟨rfl, _, pullWithin_done ended turns⟩
  | @turn feed between item items notDone step walks ih =>
    obtain ⟨ready', size, fewer⟩ := ready.progress notDone step
    obtain ⟨turns, rfl⟩ : ∃ before, turns = before + 1 := ⟨turns - 1, by omega⟩
    rw [pullWithin_succ notDone, step]
    cases item with
    | some item => exact .inr ⟨item, items, between, rfl, rfl, walks⟩
    | none => exact ih ready' (by omega)

/-- Pulling items one by one is walking step by step: no pull runs out of turns. -/
theorem drains_iff_walks {feed : Feed} (ready : feed.Ready) (within : feed.left ≤ feed.size + 2)
    {items : List Item} : Drains feed items ↔ Walks feed items := by
  constructor
  · intro drains
    induction drains with
    | @done feed feed' nothing =>
      unfold Feed.next at nothing
      split at nothing
      · rename_i found between pulled
        injection nothing with item_eq feed_eq
        injection item_eq with item_eq
        subst item_eq
        obtain ⟨_, ends, joins⟩ := walks_of_pullWithin ready within pulled
        exact joins [] (.done (ends rfl))
      · cases nothing
    | @item feed feed' item items pulled drains ih =>
      unfold Feed.next at pulled
      split at pulled
      · rename_i found between pulled'
        injection pulled with item_eq feed_eq
        injection item_eq with item_eq
        subst item_eq feed_eq
        obtain ⟨⟨ready', size, fewer⟩, _, joins⟩ := walks_of_pullWithin ready within pulled'
        exact joins items (ih ready' (by omega))
      · cases pulled
  · intro walks
    induction items generalizing feed with
    | nil =>
      rcases pullWithin_of_walks walks ready within with ⟨_, feed', pulled⟩ | ⟨_, _, _, some_eq, _⟩
      · exact .done (by rw [Feed.next, pulled])
      · cases some_eq
    | cons item items ih =>
      rcases pullWithin_of_walks walks ready within with ⟨none_eq, _⟩ | ⟨_, _, feed', same, pulled, others⟩
      · cases none_eq
      · injection same with item_eq items_eq
        subst item_eq items_eq
        obtain ⟨⟨ready', size, fewer⟩, _, _⟩ := walks_of_pullWithin ready within pulled
        exact .item (by rw [Feed.next, pulled]) (ih ready' (by omega) others)

end EpcisDigest.Json
