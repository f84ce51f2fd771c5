import EpcisDigest.Proofs.Json.Consumed

namespace EpcisDigest.Json

open Feeding

inductive Call where
  | next
  | request (demand : Int)
  | cancel

inductive Event where
  | pulled (result : Except ReadError (Option Item))
  | requested (demand : Int) (result : Except ReadError Batch)
  | cancelled

namespace Event

def items : Event → List Item
  | pulled (.ok item) => item.toList
  | pulled (.error _) => []
  | requested _ (.ok batch) => batch.items
  | requested _ (.error _) => []
  | cancelled => []

def Stops : Event → Prop
  | pulled (.error _) => True
  | pulled (.ok _) => False
  | requested demand (.error _) => 0 ≤ demand
  | requested _ (.ok _) => False
  | cancelled => True

instance : DecidablePred Stops
  | pulled (.error _) => isTrue trivial
  | pulled (.ok _) => isFalse not_false
  | requested demand (.error _) => inferInstanceAs (Decidable (0 ≤ demand))
  | requested _ (.ok _) => isFalse not_false
  | cancelled => isTrue trivial

def Ends : Event → Prop
  | requested _ (.ok batch) => batch.complete = true
  | requested demand (.error _) => 0 ≤ demand
  | pulled result => (pulled result).Stops
  | cancelled => True

instance : DecidablePred Ends
  | requested _ (.ok batch) => inferInstanceAs (Decidable (batch.complete = true))
  | requested demand (.error _) => inferInstanceAs (Decidable (0 ≤ demand))
  | pulled (.error _) => isTrue trivial
  | pulled (.ok _) => isFalse not_false
  | cancelled => isTrue trivial

end Event

def Call.whenDone : Call → Event
  | next => .pulled (.ok none)
  | request demand =>
    .requested demand (if demand < 0 then .error (.negativeDemand demand) else .ok ⟨[], true⟩)
  | cancel => .cancelled

namespace Feed

def answer (feed : Feed) : Call → Event × Feed
  | .next => (.pulled feed.next.1, feed.next.2)
  | .request demand => (.requested demand (feed.request demand).1, (feed.request demand).2)
  | .cancel => (.cancelled, feed.cancel)

def session (feed : Feed) : List Call → List Event × Feed
  | [] => ([], feed)
  | call :: calls =>
    let (event, feed) := feed.answer call
    let (events, feed) := feed.session calls
    (event :: events, feed)

def pulls (feed : Feed) : Nat → List (Except ReadError (Option Item))
  | 0 => []
  | count + 1 => feed.next.1 :: feed.next.2.pulls count

section Done

variable {feed : Feed} (ended : feed.phase = .done)

include ended

theorem next_done : feed.next = (.ok none, feed) := by
  rw [next, pullWithin_done ended]

theorem take_done (count : Nat) : feed.take count = (.ok [], feed) := by
  cases count with
  | zero => rfl
  | succ count => rw [take, next_done ended]

theorem request_done {demand : Int} (enough : 0 ≤ demand) : feed.request demand = (.ok ⟨[], true⟩, feed) := by
  have complete : feed.isComplete = true := decide_eq_true ended
  rw [request, if_neg (Int.not_lt.mpr enough), take_done ended]
  dsimp only
  rw [complete]

end Done

theorem request_negative (feed : Feed) {demand : Int} (negative : demand < 0) :
    feed.request demand = (.error (.negativeDemand demand), feed) := if_pos negative

/-- When the walk is over every call finds nothing and leaves the feed as it is. -/
theorem answer_done {feed : Feed} (ended : feed.phase = .done) (call : Call) :
    feed.answer call = (call.whenDone, feed) := by
  cases call with
  | next => rw [answer, next_done ended, Call.whenDone]
  | request demand =>
    rw [answer, Call.whenDone]
    by_cases negative : demand < 0
    · rw [request_negative feed negative, if_pos negative]
    · rw [request_done ended (Int.not_lt.mp negative), if_neg negative]
  | cancel =>
    obtain ⟨input, size, limit, phase, header, inner, saw, bare⟩ := feed
    cases ended
    rfl

def Sound (feed : Feed) : Prop := feed.left ≤ feed.size + 1

theorem ofSource_sound (source : Source) (limit : Nat) : (ofSource source limit).Sound := Nat.le_refl _

theorem sound_of_done {feed : Feed} (ended : feed.phase = .done) : feed.Sound := by
  rw [Sound, left_done ended]
  exact Nat.zero_le _

/-- The pulls of the one feed give these items and then what the pulls of the other give. -/
def Delivers (feed : Feed) (items : List Item) (feed' : Feed) : Prop :=
  ∀ count, feed.pulls (items.length + count) = items.map (fun item => .ok (some item)) ++ feed'.pulls count

theorem Delivers.refl (feed : Feed) : feed.Delivers [] feed := by
  intro count
  rw [List.length_nil, Nat.zero_add]
  rfl

theorem Delivers.trans {feed between feed' : Feed} {items more : List Item} (first : feed.Delivers items between)
    (second : between.Delivers more feed') : feed.Delivers (items ++ more) feed' := by
  intro count
  rw [List.length_append, Nat.add_assoc, first, second, List.map_append, List.append_assoc]

theorem Delivers.prefix_pulls {feed feed' : Feed} {items : List Item} (delivers : feed.Delivers items feed')
    {count : Nat} (enough : items.length ≤ count) :
    (items.map fun item => .ok (some item)) <+: feed.pulls count := by
  obtain ⟨more, rfl⟩ := Nat.exists_eq_add_of_le enough
  rw [delivers more]
  exact List.prefix_append _ _

section Next

variable {feed feed' : Feed}

theorem next_error {e : ReadError} (h : feed.next = (.error e, feed')) : feed'.phase = .done := by
  rw [next] at h
  split at h
  · cases h
  · injection h with _ feed_eq
    subst feed_eq
    rfl

theorem next_ok {item : Option Item} (sound : feed.Sound) (h : feed.next = (.ok item, feed')) :
    feed'.Sound ∧ (item = none → feed'.phase = .done) := by
  rw [next] at h
  split at h
  · rename_i pulled
    injection h with item_eq feed_eq
    injection item_eq with item_eq
    subst item_eq feed_eq
    obtain ⟨size, fewer, ends⟩ := of_pullWithin pulled
    rw [Sound] at sound
    refine ⟨?_, ends (by omega)⟩
    rw [Sound, size]
    omega
  · cases h

theorem delivers_item {item : Item} (h : feed.next = (.ok (some item), feed')) : feed.Delivers [item] feed' := by
  intro count
  rw [List.length_singleton, Nat.add_comm, pulls, h]
  rfl

theorem pulls_done (ended : feed.phase = .done) (count : Nat) :
    feed.pulls count = List.replicate count (.ok none) := by
  induction count with
  | zero => rfl
  | succ count ih => rw [pulls, next_done ended, ih, List.replicate_succ]

theorem delivers_none (sound : feed.Sound) (h : feed.next = (.ok none, feed')) : feed.Delivers [] feed' := by
  intro count
  have ended := (next_ok sound h).2 rfl
  cases count with
  | zero => rfl
  | succ count =>
    rw [List.length_nil, Nat.zero_add, pulls, h, pulls_done ended, pulls_done ended]
    rfl

end Next

section Take

variable {feed feed' : Feed} {count : Nat}

theorem take_error {e : ReadError} (h : feed.take count = (.error e, feed')) : feed'.phase = .done := by
  induction count generalizing feed e with
  | zero => cases h
  | succ count ih =>
    rw [take] at h
    split at h
    · rename_i failed
      injection h with _ feed_eq
      subst feed_eq
      exact next_error failed
    · cases h
    · split at h
      · rename_i failed
        injection h with _ feed_eq
        subst feed_eq
        exact ih failed
      · cases h

theorem take_ok {items : List Item} (sound : feed.Sound) (h : feed.take count = (.ok items, feed')) :
    feed'.Sound ∧ feed.Delivers items feed' ∧ items.length ≤ count ∧
      (items.length < count → feed'.phase = .done) := by
  induction count generalizing feed items with
  | zero =>
    injection h with items_eq feed_eq
    injection items_eq with items_eq
    subst items_eq feed_eq
    exact ⟨sound, .refl feed, Nat.le_refl 0, fun fewer => absurd fewer (Nat.lt_irrefl 0)⟩
  | succ count ih =>
    rw [take] at h
    split at h
    · cases h
    · rename_i pulled
      injection h with items_eq feed_eq
      injection items_eq with items_eq
      subst items_eq feed_eq
      obtain ⟨sound', ends⟩ := next_ok sound pulled
      exact ⟨sound', delivers_none sound pulled, Nat.zero_le _, fun _ => ends rfl⟩
    · rename_i pulled
      have between := (next_ok sound pulled).1
      split at h
      · cases h
      · rename_i taken
        injection h with items_eq feed_eq
        injection items_eq with items_eq
        subst items_eq feed_eq
        obtain ⟨sound', delivers, most, ends⟩ := ih between taken
        exact ⟨sound', (delivers_item pulled).trans delivers, Nat.succ_le_succ most,
          fun fewer => ends (Nat.lt_of_succ_lt_succ fewer)⟩

end Take

theorem request_error {feed feed' : Feed} {demand : Int} {e : ReadError} (enough : 0 ≤ demand)
    (h : feed.request demand = (.error e, feed')) : feed'.phase = .done := by
  rw [request, if_neg (Int.not_lt.mpr enough)] at h
  split at h
  · rename_i failed
    injection h with _ feed_eq
    subst feed_eq
    exact take_error failed
  · cases h

/-- A batch that is not complete is full. -/
theorem request_ok {feed feed' : Feed} {demand : Int} {batch : Batch} (sound : feed.Sound)
    (h : feed.request demand = (.ok batch, feed')) :
    feed'.Sound ∧ feed.Delivers batch.items feed' ∧ batch.complete = feed'.isComplete ∧
      batch.items.length ≤ demand ∧ (batch.items.length < demand → batch.complete = true) := by
  rw [request] at h
  split at h
  · cases h
  · split at h
    · cases h
    · rename_i taken
      injection h with batch_eq feed_eq
      injection batch_eq with batch_eq
      subst batch_eq feed_eq
      obtain ⟨sound', delivers, most, ends⟩ := take_ok sound taken
      dsimp only
      exact ⟨sound', delivers, rfl, by omega, fun fewer => decide_eq_true (ends (by omega))⟩

section Answer

variable {feed : Feed} (sound : feed.Sound)

include sound

theorem answer_sound (call : Call) : (feed.answer call).2.Sound := by
  cases call with
  | next =>
    rw [answer]
    rcases result : feed.next with ⟨e | item, feed'⟩
    · exact sound_of_done (next_error result)
    · exact (next_ok sound result).1
  | request demand =>
    rw [answer]
    rcases result : feed.request demand with ⟨e | batch, feed'⟩
    · by_cases negative : demand < 0
      · rw [request_negative feed negative] at result
        injection result with _ feed_eq
        subst feed_eq
        exact sound
      · exact sound_of_done (request_error (Int.not_lt.mp negative) result)
    · exact (request_ok sound result).1
  | cancel => exact sound_of_done rfl

theorem answer_delivers (call : Call) (runs : ¬ (feed.answer call).1.Stops) :
    feed.Delivers (feed.answer call).1.items (feed.answer call).2 := by
  cases call with
  | next =>
    rw [answer] at runs ⊢
    rcases result : feed.next with ⟨e | item, feed'⟩ <;> rw [result] at runs
    · exact absurd trivial runs
    · cases item with
      | none => exact delivers_none sound result
      | some item => exact delivers_item result
  | request demand =>
    rw [answer] at runs ⊢
    rcases result : feed.request demand with ⟨e | batch, feed'⟩ <;> rw [result] at runs
    · rw [request_negative feed (Int.not_le.mp runs)] at result
      injection result with _ feed_eq
      subst feed_eq
      exact .refl feed
    · exact (request_ok sound result).2.1
  | cancel => exact absurd trivial runs

theorem answer_ends (call : Call) (ends : (feed.answer call).1.Ends) : (feed.answer call).2.phase = .done := by
  cases call with
  | next =>
    rw [answer] at ends ⊢
    rcases result : feed.next with ⟨e | item, feed'⟩ <;> rw [result] at ends
    · exact next_error result
    · exact absurd ends not_false
  | request demand =>
    rw [answer] at ends ⊢
    rcases result : feed.request demand with ⟨e | batch, feed'⟩ <;> rw [result] at ends
    · exact request_error ends result
    · have complete := (request_ok sound result).2.2.1
      exact of_decide_eq_true (complete.symm.trans ends)
  | cancel => rfl

end Answer

theorem session_cons (feed : Feed) (call : Call) (calls : List Call) :
    feed.session (call :: calls) =
      ((feed.answer call).1 :: ((feed.answer call).2.session calls).1, ((feed.answer call).2.session calls).2) := rfl

theorem session_done {feed : Feed} (ended : feed.phase = .done) (calls : List Call) :
    feed.session calls = (calls.map Call.whenDone, feed) := by
  induction calls with
  | nil => rfl
  | cons call calls ih => rw [session_cons, answer_done ended, ih, List.map_cons]

theorem session_delivers {feed : Feed} (sound : feed.Sound) (calls : List Call)
    (undisturbed : ∀ event ∈ (feed.session calls).1, ¬ event.Stops) :
    feed.Delivers ((feed.session calls).1.flatMap Event.items) (feed.session calls).2 := by
  induction calls generalizing feed with
  | nil => exact .refl feed
  | cons call calls ih =>
    rw [session_cons] at undisturbed ⊢
    have runs := undisturbed _ List.mem_cons_self
    rw [List.flatMap_cons]
    refine (answer_delivers sound call runs).trans (ih (answer_sound sound call) ?_)
    exact fun event member => undisturbed event (List.mem_cons_of_mem _ member)

theorem session_ends {feed : Feed} (sound : feed.Sound) (calls : List Call)
    (ends : ∃ event ∈ (feed.session calls).1, event.Ends) : (feed.session calls).2.phase = .done := by
  induction calls generalizing feed with
  | nil =>
    obtain ⟨event, member, _⟩ := ends
    cases member
  | cons call calls ih =>
    rw [session_cons] at ends ⊢
    obtain ⟨event, member, ends⟩ := ends
    rcases List.mem_cons.mp member with rfl | later
    · have ended := answer_ends sound call ends
      rw [session_done ended]
      exact ended
    · exact ih (answer_sound sound call) ⟨event, later, ends⟩

theorem session_sound {feed : Feed} (sound : feed.Sound) (calls : List Call) : (feed.session calls).2.Sound := by
  induction calls generalizing feed with
  | nil => exact sound
  | cons call calls ih => exact ih (answer_sound sound call)

/-- However the demand is split, the items are those that single pulls deliver, in their order; a batch that is
    not complete is as large as its demand; and when nothing is left no call moves the feed any more. -/
theorem session_demand (source : Source) (limit : Nat) {calls : List Call} {events : List Event} {feed : Feed}
    (ran : (ofSource source limit).session calls = (events, feed)) :
    ((∀ event ∈ events, ¬ event.Stops) →
      ∀ count, (events.flatMap Event.items).length ≤ count →
        ((events.flatMap Event.items).map fun item => .ok (some item)) <+: (ofSource source limit).pulls count) ∧
    (∀ demand batch feed', feed.request demand = (.ok batch, feed') →
      batch.items.length ≤ demand ∧ (batch.items.length < demand → batch.complete = true)) ∧
    (∀ demand < 0, feed.request demand = (.error (.negativeDemand demand), feed)) ∧
    ((∃ event ∈ events, event.Ends) → ∀ call, feed.answer call = (call.whenDone, feed)) := by
  have sound := ofSource_sound source limit
  have events_eq : ((ofSource source limit).session calls).1 = events := congrArg Prod.fst ran
  have feed_eq : ((ofSource source limit).session calls).2 = feed := congrArg Prod.snd ran
  subst events_eq feed_eq
  refine ⟨fun undisturbed count enough => ?_, fun demand batch feed' requested => ?_, fun demand negative => ?_,
    fun ends call => ?_⟩
  · exact (session_delivers sound calls undisturbed).prefix_pulls enough
  · exact (request_ok (session_sound sound calls) requested).2.2.2
  · exact request_negative _ negative
  · exact answer_done (session_ends sound calls ends) call

def twoEvents : Source :=
  Source.whole (Text.bytesOf
    "[\x7b\"type\":\"ObjectEvent\"\x7d,\x7b\x7d,\x7b\"type\":\"AggregationEvent\"\x7d]")

theorem session_demand_twoEvents :
    ∃ events feed, (ofSource twoEvents 100).session [.request 1, .request (-1), .next, .request 1] = (events, feed) ∧
      (events.flatMap Event.items).length = 2 ∧
      ((events.flatMap Event.items).map fun item => .ok (some item)) <+: (ofSource twoEvents 100).pulls 2 ∧
      ∀ call, feed.answer call = (call.whenDone, feed) := by
  have run := @session_demand twoEvents 100 [.request 1, .request (-1), .next, .request 1] _ _ rfl
  refine ⟨_, _, rfl, ?_, run.1 ?_ 2 ?_, run.2.2.2 ?_⟩ <;> decide +kernel

end Feed

end EpcisDigest.Json
