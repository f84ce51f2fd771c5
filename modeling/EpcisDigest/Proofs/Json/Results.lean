import EpcisDigest.Hashing
import EpcisDigest.Proofs.Json.Demand

namespace EpcisDigest.Json

open Feeding

def Item.event? : Item → Option Value
  | .event value => some value
  | .header _ => none

namespace Feeding

def Gives {α : Type} (action : Feeding α) (holds : α → Feed → Prop) : Prop :=
  ∀ feed a feed', action feed = .ok a feed' → holds a feed'

theorem Gives.bind {α β : Type} {action : Feeding α} {next : α → Feeding β} {holds : β → Feed → Prop}
    (second : ∀ a, Gives (next a) holds) : Gives (action >>= next) holds := by
  intro feed b feed' h
  obtain ⟨a, between, _, rest⟩ := exists_of_bind_ok h
  exact second a _ _ _ rest

def HeaderLast (item : Option Item) (feed : Feed) : Prop :=
  ∀ header, item = some (.header header) → feed.phase = .done

theorem gives_none : Gives (pure none) HeaderLast := by
  intro feed item feed' h header same
  injection h with item_eq _
  rw [← item_eq] at same
  cases same

theorem gives_finish : Gives finish fun _ feed => feed.phase = .done := by
  refine Gives.bind fun found => ?_
  split
  · intro feed item feed' h
    cases h
  · intro feed item feed' h
    obtain ⟨_, ended, set, gets⟩ := exists_of_bind_ok h
    obtain ⟨_, _, got, gives⟩ := exists_of_bind_ok gets
    injection set with _ ended_eq
    injection got with same same'
    subst ended_eq same same'
    have closes : ∃ found, (.ok found { feed with phase := .done } : EStateM.Result ReadError Feed (Option Item)) =
        .ok item feed' := by
      dsimp only at gives
      rw [← gives]
      split
      · exact ⟨_, rfl⟩
      · split
        · exact ⟨_, rfl⟩
        · split <;> exact ⟨_, rfl⟩
    obtain ⟨_, same⟩ := closes
    injection same with _ feed_eq
    rw [← feed_eq]

theorem gives_leave : Gives leave HeaderLast := by
  intro feed item feed' h
  obtain ⟨input, size, limit, phase, header, inner, saw, bare⟩ := feed
  cases inner with
  | nil => exact fun _ _ => gives_finish _ _ _ h
  | cons entry outer =>
    injection h with item_eq _
    intro header same
    rw [← item_eq] at same
    cases same

theorem gives_fieldValue (name : String) : Gives (fieldValue name) HeaderLast := by
  refine Gives.bind fun found => ?_
  split
  · exact Gives.bind fun _ => gives_none
  · refine Gives.bind fun found => ?_
    split
    · exact Gives.bind fun _ => gives_none
    · exact Gives.bind fun value => Gives.bind fun _ => gives_none

theorem gives_field : Gives field HeaderLast := by
  rw [field_eq]
  refine Gives.bind fun found => ?_
  split
  · exact gives_leave
  · exact Gives.bind fun _ => Gives.bind fun name => Gives.bind fun _ => gives_fieldValue name

theorem gives_element : Gives element HeaderLast := by
  refine Gives.bind fun _ => Gives.bind fun value => ?_
  intro feed item feed' h header same
  injection h with item_eq _
  rw [← item_eq] at same
  obtain ⟨_, _, other⟩ := Option.map_eq_some_iff.mp same
  cases other

theorem gives_entry (first : Bool) : Gives (entry first) HeaderLast := by
  refine Gives.bind fun found => ?_
  split
  · refine Gives.bind fun feed => ?_
    split
    · exact fun feed item feed' h _ _ => gives_finish feed item feed' h
    · exact Gives.bind fun _ => gives_none
  · cases first with
    | true => exact gives_element
    | false => exact Gives.bind fun _ => gives_element

theorem gives_turn : Gives turn HeaderLast := by
  refine Gives.bind fun feed => ?_
  split
  · exact gives_none
  · exact Gives.bind fun _ => gives_none
  · exact gives_field
  · exact gives_entry _

theorem gives_pullWithin (turns : Nat) : Gives (pullWithin turns) HeaderLast := by
  induction turns with
  | zero => exact gives_none
  | succ turns ih =>
    intro feed item feed' h
    by_cases ended : feed.phase = .done
    · rw [pullWithin_done ended] at h
      exact gives_none feed item feed' h
    · rw [pullWithin_succ ended] at h
      split at h
      · rename_i found between step
        injection h with item_eq feed_eq
        subst item_eq feed_eq
        exact gives_turn _ _ _ step
      · exact ih _ _ _ h
      · cases h

end Feeding

/-- The items that single pulls give one after another, and the error that ends them, if one does. -/
inductive Leads : Feed → List Item → Option ReadError → Prop
  | ended {feed feed' : Feed} (pulled : feed.next = (.ok none, feed')) : Leads feed [] none
  | refused {feed feed' : Feed} {e : ReadError} (pulled : feed.next = (.error e, feed')) : Leads feed [] (some e)
  | item {feed feed' : Feed} {item : Item} {items : List Item} {refusal : Option ReadError}
      (pulled : feed.next = (.ok (some item), feed')) (leads : Leads feed' items refusal) :
      Leads feed (item :: items) refusal

namespace Feed

def behind (feed : Feed) : Nat → Feed
  | 0 => feed
  | count + 1 => feed.next.2.behind count

theorem next_header {feed feed' : Feed} {header : Value} (h : feed.next = (.ok (some (.header header)), feed')) :
    feed'.phase = .done := by
  rw [next] at h
  split at h
  · rename_i pulled
    injection h with item_eq feed_eq
    injection item_eq with item_eq
    subst item_eq feed_eq
    exact gives_pullWithin _ _ _ _ pulled header rfl
  · cases h

theorem left_of_item {turns : Nat} {feed feed' : Feed} {item : Item}
    (h : pullWithin turns feed = .ok (some item) feed') : feed'.left < feed.left := by
  cases turns with
  | zero => cases h
  | succ turns =>
    by_cases ended : feed.phase = .done
    · rw [pullWithin_done ended] at h
      cases h
    · rw [pullWithin_succ ended] at h
      split at h
      · rename_i found between step
        injection h with item_eq feed_eq
        subst feed_eq
        exact (left_of_turn ended step).2
      · rename_i between step
        have before := (left_of_turn ended step).2
        have behind := (of_pullWithin h).2.1
        omega
      · cases h

theorem next_item {feed feed' : Feed} {item : Item} (sound : feed.Sound) (h : feed.next = (.ok (some item), feed')) :
    feed'.Sound ∧ feed'.left < feed.left := by
  refine ⟨(next_ok sound h).1, ?_⟩
  rw [next] at h
  split at h
  · rename_i pulled
    injection h with item_eq feed_eq
    injection item_eq with item_eq
    subst item_eq feed_eq
    exact left_of_item pulled
  · cases h

theorem exists_leads {feed : Feed} (sound : feed.Sound) : ∃ items refusal, Leads feed items refusal := by
  induction bound : feed.left using Nat.strongRecOn generalizing feed with
  | ind left ih =>
    rcases result : feed.next with ⟨e | item, feed'⟩
    · exact ⟨[], some e, .refused result⟩
    · cases item with
      | none => exact ⟨[], none, .ended result⟩
      | some item =>
        obtain ⟨sound', fewer⟩ := next_item sound result
        obtain ⟨items, refusal, leads⟩ := ih feed'.left (bound ▸ fewer) sound' rfl
        exact ⟨item :: items, refusal, .item result leads⟩

theorem length_le_of_leads {feed : Feed} {items : List Item} {refusal : Option ReadError}
    (leads : Leads feed items refusal) (sound : feed.Sound) : items.length ≤ feed.left := by
  induction leads with
  | ended pulled => exact Nat.zero_le _
  | refused pulled => exact Nat.zero_le _
  | item pulled leads ih =>
    obtain ⟨sound', fewer⟩ := next_item sound pulled
    exact Nat.lt_of_le_of_lt (ih sound') fewer

theorem leads_of_done {feed : Feed} {items : List Item} {refusal : Option ReadError} (ended : feed.phase = .done)
    (leads : Leads feed items refusal) : items = [] ∧ refusal = none := by
  have nothing := next_done ended
  cases leads with
  | ended pulled => exact ⟨rfl, rfl⟩
  | refused pulled =>
    rw [nothing] at pulled
    cases pulled
  | item pulled leads =>
    rw [nothing] at pulled
    cases pulled

/-- The namespaces that the header binds when the first of these items that is an event has come. -/
def boundAtFirst (feed : Feed) (items : List Item) : Namespaces :=
  match items.findIdx? fun item => item.event?.isSome with
  | some index => JsonHashing.boundNamespaces (feed.behind (index + 1))
  | none => NameTable.empty

theorem boundAtFirst_event {feed feed' : Feed} {event : Value} (pulled : feed.next = (.ok (some (.event event)), feed'))
    (items : List Item) : feed.boundAtFirst (.event event :: items) = JsonHashing.boundNamespaces feed' := by
  rw [boundAtFirst, List.findIdx?_cons]
  simp only [Item.event?, Option.isSome_some, ite_true, behind, pulled]

end Feed

end EpcisDigest.Json

namespace EpcisDigest

open Json

def hashedItems (settings : Settings) (namespaces : Namespaces) (items : List Item) (refusal : Option ReadError) :
    List (Except HashError Results) :=
  untilError ((items.filterMap Item.event?).map (hashValue settings namespaces) ++
    refusal.toList.map fun e => .error (.json e))

theorem length_untilError_le {ε α : Type} (results : List (Except ε α)) :
    (untilError results).length ≤ results.length := by
  induction results with
  | nil => exact Nat.le_refl 0
  | cons result results ih =>
    cases result with
    | error e => exact Nat.succ_le_succ (Nat.zero_le _)
    | ok a => exact Nat.succ_le_succ ih

theorem length_hashedItems_le (settings : Settings) (namespaces : Namespaces) (items : List Item)
    (refusal : Option ReadError) : (hashedItems settings namespaces items refusal).length ≤ items.length + 1 := by
  refine Nat.le_trans (length_untilError_le _) ?_
  have events := List.length_filterMap_le Item.event? items
  cases refusal <;> simp <;> omega

namespace JsonHashing

variable (settings : Settings)

def pulls (hashing : JsonHashing) : Nat → List (Option (Except HashError Results))
  | 0 => []
  | count + 1 => (hashing.next settings).1 :: (hashing.next settings).2.pulls count

theorem next_failed {hashing : JsonHashing} (failed : hashing.failed = true) :
    hashing.next settings = (none, hashing) := if_pos failed

theorem next_done {hashing : JsonHashing} (ended : hashing.feed.phase = .done) :
    hashing.next settings = (none, hashing) := by
  rw [next]
  split
  · rfl
  · rw [Feed.next_done ended]

theorem pulls_nothing {hashing : JsonHashing} (nothing : hashing.next settings = (none, hashing)) (count : Nat) :
    hashing.pulls settings count = List.replicate count none := by
  induction count with
  | zero => rfl
  | succ count ih => rw [pulls, nothing, ih, List.replicate_succ]

def Yields (hashing : JsonHashing) (results : List (Except HashError Results)) : Prop :=
  ∀ further, hashing.pulls settings (results.length + further) =
    results.map some ++ List.replicate further none

variable {settings}

theorem Yields.nil {hashing hashing' : JsonHashing} (pulled : hashing.next settings = (none, hashing'))
    (nothing : hashing'.next settings = (none, hashing')) : hashing.Yields settings [] := by
  intro further
  rw [List.length_nil, Nat.zero_add, List.map_nil, List.nil_append]
  cases further with
  | zero => rfl
  | succ further => rw [pulls, pulled, pulls_nothing settings nothing, List.replicate_succ]

theorem Yields.cons {hashing hashing' : JsonHashing} {result : Except HashError Results}
    {results : List (Except HashError Results)} (pulled : hashing.next settings = (some result, hashing'))
    (yields : hashing'.Yields settings results) : hashing.Yields settings (result :: results) := by
  intro further
  rw [List.length_cons, Nat.add_right_comm, pulls, pulled, yields, List.map_cons, List.cons_append]

theorem Yields.last {hashing hashing' : JsonHashing} {result : Except HashError Results}
    (pulled : hashing.next settings = (some result, hashing')) (failed : hashing'.failed = true) :
    hashing.Yields settings [result] :=
  .cons pulled (.nil (next_failed settings failed) (next_failed settings failed))

theorem Yields.take {hashing : JsonHashing} {results : List (Except HashError Results)}
    (yields : hashing.Yields settings results) {count : Nat} (enough : results.length ≤ count) :
    (hashing.take settings count).1 = results := by
  induction results generalizing hashing count with
  | nil =>
    cases count with
    | zero => rfl
    | succ count =>
      have first := yields 1
      rcases pulled : hashing.next settings with ⟨_ | result, hashing'⟩
      · rw [JsonHashing.take, pulled]
      · simp [pulls, pulled] at first
  | cons result results ih =>
    obtain ⟨count, rfl⟩ : ∃ fewer, count = fewer + 1 := ⟨count - 1, by rw [List.length_cons] at enough; omega⟩
    have first := yields 0
    rcases pulled : hashing.next settings with ⟨_ | other, hashing'⟩
    · simp [pulls, pulled] at first
    · have same : other = result := by
        simp [pulls, pulled] at first
        exact first.1
      subst same
      have others : hashing'.Yields settings results := by
        intro further
        have whole := yields further
        rw [List.length_cons, Nat.add_right_comm, pulls, pulled, List.map_cons, List.cons_append] at whole
        exact List.tail_eq_of_cons_eq whole
      rw [JsonHashing.take, pulled]
      dsimp only
      rw [ih others (Nat.le_of_succ_le_succ enough)]

theorem hashedItems_event (namespaces : Namespaces) (event : Value) (items : List Item) (refusal : Option ReadError) :
    hashedItems settings namespaces (.event event :: items) refusal =
      match hashValue settings namespaces event with
      | .ok results => .ok results :: hashedItems settings namespaces items refusal
      | .error e => [.error e] := by
  rw [hashedItems, List.filterMap_cons, Item.event?]
  dsimp only
  rw [List.map_cons, List.cons_append]
  cases hashValue settings namespaces event <;> rfl

variable (settings) in
theorem next_event {feed feed' : Feed} {event : Value} (pulled : feed.next = (.ok (some (.event event)), feed'))
    (kept : Option Namespaces) :
    next settings ⟨feed, kept, false⟩ =
      let namespaces := kept.getD (boundNamespaces feed')
      let result := hashValue settings namespaces event
      (some result, ⟨feed', some namespaces, !result.isOk⟩) := by
  rw [next, if_neg Bool.false_ne_true, pulled]

/-- The results are those of the items, under the table that was kept or that the first event finds. -/
theorem yields_of_leads {feed : Feed} {items : List Item} {refusal : Option ReadError}
    (leads : Leads feed items refusal) (sound : feed.Sound) (kept : Option Namespaces) :
    Yields settings ⟨feed, kept, false⟩
      (hashedItems settings (kept.getD (feed.boundAtFirst items)) items refusal) := by
  induction leads generalizing kept with
  | @ended feed feed' pulled =>
    have nothing : next settings ⟨feed, kept, false⟩ = (none, ⟨feed', kept, false⟩) := by
      rw [next, if_neg Bool.false_ne_true, pulled]
    exact .nil nothing (next_done settings ((Feed.next_ok sound pulled).2 rfl))
  | @refused feed feed' e pulled =>
    have failed : next settings ⟨feed, kept, false⟩ = (some (.error (.json e)), ⟨feed', kept, true⟩) := by
      rw [next, if_neg Bool.false_ne_true, pulled]
    exact .last failed rfl
  | @item feed feed' item items refusal pulled leads ih =>
    cases item with
    | event event =>
      have step := next_event settings pulled kept
      rw [Feed.boundAtFirst_event pulled, hashedItems_event]
      dsimp only at step
      cases hashed : hashValue settings (kept.getD (boundNamespaces feed')) event with
      | error e =>
        rw [hashed] at step
        exact .last step rfl
      | ok results =>
        rw [hashed] at step
        exact .cons step (ih (Feed.next_item sound pulled).1 _)
    | header header =>
      have ended := Feed.next_header pulled
      obtain ⟨rfl, rfl⟩ := Feed.leads_of_done ended leads
      have nothing : next settings ⟨feed, kept, false⟩ = (none, ⟨feed', kept, false⟩) := by
        rw [next, if_neg Bool.false_ne_true, pulled]
      exact .nil nothing (next_done settings ended)

variable (settings) in
theorem ofSource_yields (source : Source) (limit : Nat) {items : List Item} {refusal : Option ReadError}
    (leads : Leads (Feed.ofSource source limit) items refusal) :
    (ofSource source limit).Yields settings (hashJson settings source limit) ∧
      hashJson settings source limit =
        hashedItems settings ((Feed.ofSource source limit).boundAtFirst items) items refusal := by
  have sound := Feed.ofSource_sound source limit
  have yields : (ofSource source limit).Yields settings _ := yields_of_leads leads sound none
  have most := Nat.le_trans (Feed.length_le_of_leads leads sound) sound
  have enough := length_hashedItems_le settings ((Feed.ofSource source limit).boundAtFirst items) items refusal
  have all : hashJson settings source limit = _ := yields.take (Nat.le_trans enough (Nat.succ_le_succ most))
  exact ⟨all ▸ yields, all⟩

end JsonHashing

end EpcisDigest
