import EpcisDigest.Json.Feed
import EpcisDigest.Proofs.Json.Reading

namespace EpcisDigest.Json

open Reading Input

namespace Feed

def closing (feed : Feed) : Option Item :=
  let header := Value.object feed.header.stored
  if feed.bareArray then none
  else if !feed.sawEventList && header.eventType?.any isEventType then some (.event header)
  else if documentMarkers.all fun name => (header.member? name).isSome then some (.header header)
  else none

def facing (feed : Feed) (bytes : List UInt8) (offset : Nat) : Feed :=
  { feed with input := inside bytes offset }

@[simp] theorem facing_facing (feed : Feed) (bytes bytes' : List UInt8) (offset offset' : Nat) :
    (feed.facing bytes offset).facing bytes' offset' = feed.facing bytes' offset' := rfl

@[simp] theorem facing_level (feed : Feed) (bytes : List UInt8) (offset : Nat) :
    (feed.facing bytes offset).level = feed.level := rfl

def begun (feed : Feed) : Feed := feed.setLevel { feed.level with first := false }

theorem facing_begun (feed : Feed) (bytes : List UInt8) (offset : Nat) :
    (feed.facing bytes offset).begun = feed.begun.facing bytes offset := by
  obtain ⟨input, size, limit, phase, header, inner, saw, bare⟩ := feed
  cases inner <;> rfl

theorem facing_store (feed : Feed) (name : String) (value : Value) (bytes : List UInt8) (offset : Nat) :
    (feed.facing bytes offset).store name value = (feed.store name value).facing bytes offset := by
  obtain ⟨input, size, limit, phase, header, inner, saw, bare⟩ := feed
  cases inner <;> rfl

end Feed

namespace Feeding

theorem reading_ok {α : Type} {action : Reading α} {feed : Feed} {a : α} {bytes : List UInt8} {offset : Nat}
    (read : action feed.input = .ok a (inside bytes offset)) :
    reading action feed = .ok a (feed.facing bytes offset) := by
  simp only [reading, read, Feed.facing]

theorem exists_input_of_reading {α : Type} {action : Reading α} {feed feed' : Feed} {a : α}
    (h : reading action feed = .ok a feed') :
    ∃ input, action feed.input = .ok a input ∧ feed' = { feed with input } := by
  simp only [reading] at h
  split at h
  · rename_i read
    injection h with a_eq feed_eq
    subst a_eq
    exact ⟨_, read, feed_eq.symm⟩
  · cases h

theorem of_reading {α : Type} {action : Reading α} {feed feed' : Feed} {a : α} {bytes : List UInt8}
    {offset : Nat} (h : reading action (feed.facing bytes offset) = .ok a feed') :
    ∃ input, action (inside bytes offset) = .ok a input ∧ feed' = { feed with input } :=
  exists_input_of_reading h

theorem finish_found (feed : Feed) (blank : Blanks) (offset : Nat) :
    ∃ offset', finish (feed.facing blank.val offset) =
      .ok feed.closing { feed.facing [] offset' with phase := .done } := by
  obtain ⟨offset', peeked⟩ := peekSignificant_inside blank.val offset
  have nothing : skipSpaces blank.val = [] := by
    have skipped := skipSpaces_blanks blank []
    rwa [List.append_nil] at skipped
  rw [nothing, List.head?_nil] at peeked
  refine ⟨offset', ?_⟩
  rw [finish, bind_of_ok (reading_ok peeked)]
  dsimp only
  rw [if_neg (show ¬ (none : Option UInt8).isSome = true by decide)]
  simp only [setPhase, bind, EStateM.bind, modify_apply, get_apply, Feed.closing, Feed.facing]
  split
  · rfl
  · split
    · rfl
    · split <;> rfl

theorem of_finish {feed feed' : Feed} {bytes : List UInt8} {offset : Nat} {item : Option Item}
    (h : finish (feed.facing bytes offset) = .ok item feed') :
    ∃ (blank : Blanks) (offset' : Nat), bytes = blank.val ∧ item = feed.closing ∧
      feed' = { feed.facing [] offset' with phase := .done } := by
  obtain ⟨blank, whole⟩ := exists_blanks bytes
  cases left : skipSpaces bytes with
  | nil =>
    rw [left, List.append_nil] at whole
    subst whole
    obtain ⟨offset', found⟩ := finish_found feed blank offset
    rw [found] at h
    injection h with item_eq feed_eq
    exact ⟨blank, offset', rfl, item_eq.symm, feed_eq.symm⟩
  | cons b rest =>
    obtain ⟨offset', peeked⟩ := peekSignificant_inside bytes offset
    rw [finish, bind_of_ok (reading_ok peeked), left] at h
    cases h

theorem heldValue_found (feed : Feed) (blank : Blanks) (written : Written) {stop : UInt8}
    (ends : endsLiteral stop = true) (fits : written.bytes.length ≤ feed.limit)
    (deep : written.depth ≤ maxDepth) (readable : written.Readable) (rest : List UInt8) (offset : Nat) :
    ∃ offset', heldValue (feed.facing (blank.val ++ (written.bytes ++ stop :: rest)) offset) =
      .ok written.value (feed.facing (stop :: rest) offset') := by
  obtain ⟨offset', captured⟩ := capture_found blank written ends fits rest offset
  have parsed : parse? written.bytes = some written.value := by
    refine parse?_eq_some_iff.mpr ⟨⟨.none, written, .none⟩, ?_, deep, readable, rfl⟩
    exact (List.append_nil _).symm
  refine ⟨offset', ?_⟩
  simp only [heldValue, bind, EStateM.bind, get_apply, reading,
    Feed.facing, captured, parsed]
  rfl

theorem of_heldValue {feed feed' : Feed} {bytes : List UInt8} {offset : Nat} {value : Value}
    (h : heldValue (feed.facing bytes offset) = .ok value feed') :
    ∃ (before after : Blanks) (written : Written) (rest : List UInt8) (offset' : Nat),
      bytes = before.val ++ (written.bytes ++ (after.val ++ rest)) ∧ written.value = value ∧
        feed' = feed.facing rest offset' := by
  obtain ⟨same, middle, got, captures⟩ := exists_of_bind_ok h
  injection got with same_eq middle_eq
  subst same_eq middle_eq
  obtain ⟨taken, middle, read, parses⟩ := exists_of_bind_ok captures
  obtain ⟨input, captured, rfl⟩ := of_reading read
  obtain ⟨blank, rest, offset', rfl, rfl⟩ := of_capture captured
  cases parsed : parse? taken with
  | none =>
    rw [parsed] at parses
    cases parses
  | some found =>
    rw [parsed] at parses
    injection parses with value_eq feed_eq
    subst value_eq feed_eq
    obtain ⟨⟨before, written, after⟩, rfl, deep, readable, same⟩ := parse?_eq_some_iff.mp parsed
    refine ⟨blank.append before, after, written, rest, offset', ?_, same, rfl⟩
    simp only [Blanks.append, List.append_assoc]

def fieldValue (name : String) : Feeding (Option Item) := do
  if ← enterEvents name then
    modify fun feed => { feed with sawEventList := true, phase := .events true }
    pure none
  else if ← enterContainer name then
    modify fun feed => { feed with inner := (name, ⟨[], true⟩) :: feed.inner }
    pure none
  else
    let value ← heldValue
    modify (Feed.store name value)
    pure none

theorem field_eq : field = (do
    if ← reading (takeIf 0x7D) then leave
    else
      separate
      let name ← reading readString
      reading (expect 0x3A)
      fieldValue name) := rfl

theorem separate_eq (feed : Feed) :
    separate feed =
      if feed.level.first then .ok () feed.begun else reading (expect 0x2C) feed.begun := by
  simp only [separate, bind, EStateM.bind, get_apply, set_apply,
    Feed.begun]
  cases feed.level.first <;> rfl

theorem field_close (feed : Feed) (blank : Blanks) (rest : List UInt8) (offset : Nat) :
    ∃ offset', field (feed.facing (blank.val ++ 0x7D :: rest) offset) = leave (feed.facing rest offset') := by
  obtain ⟨offset', taken⟩ := takeIf_found blank (show isSpace 0x7D = false from rfl) rest offset
  refine ⟨offset', ?_⟩
  rw [field_eq, bind_of_ok (reading_ok taken)]
  rfl

theorem field_member (feed : Feed) (blank : Blanks) (name : Padded WrittenString) (tail : List UInt8)
    (offset : Nat) :
    ∃ offset', field (feed.facing (blank.val ++ (separator feed.level.first ++ (nameBytes name ++ tail))) offset) =
      fieldValue name.inner.text (feed.begun.facing tail offset') := by
  have read : ∀ (before : Blanks) (offset : Nat), ∃ offset',
      (do
        let name ← reading readString
        reading (expect 0x3A)
        fieldValue name) (feed.begun.facing (before.val ++ (name.inner.quoted ++
          (name.after.val ++ 0x3A :: tail))) offset) =
        fieldValue name.inner.text (feed.begun.facing tail offset') := by
    intro before offset
    obtain ⟨offset', quoted⟩ := readString_found before name.inner (name.after.val ++ 0x3A :: tail) offset
    obtain ⟨offset'', colon⟩ := expect_found name.after (show isSpace 0x3A = false from rfl) tail offset'
    refine ⟨offset'', ?_⟩
    rw [bind_of_ok (reading_ok quoted), bind_of_ok (reading_ok colon), Feed.facing_facing, Feed.facing_facing]
  rw [field_eq]
  cases first : feed.level.first with
  | true =>
    obtain ⟨between, other⟩ := takeIf_other (blank.append name.before) (show isSpace 0x22 = false from rfl)
      (show (0x22 : UInt8) ≠ 0x7D by decide)
      (name.inner.bytes ++ 0x22 :: (name.after.val ++ 0x3A :: tail)) offset
    obtain ⟨offset', rest⟩ := read .none between
    refine ⟨offset', ?_⟩
    have text : blank.val ++ (separator true ++ (nameBytes name ++ tail)) = (blank.append name.before).val ++
        0x22 :: (name.inner.bytes ++ 0x22 :: (name.after.val ++ 0x3A :: tail)) := by
      simp only [Blanks.append, separator, ite_true, nameBytes, WrittenString.quoted, List.nil_append,
        List.cons_append, List.append_assoc]
    have separated : separate (feed.facing (0x22 :: (name.inner.bytes ++ 0x22 :: (name.after.val ++ 0x3A :: tail)))
        between) = .ok () (feed.begun.facing (0x22 :: (name.inner.bytes ++ 0x22 :: (name.after.val ++ 0x3A :: tail)))
          between) := by
      rw [separate_eq, Feed.facing_level, first, if_pos rfl, Feed.facing_begun]
    rw [text, bind_of_ok (reading_ok other)]
    simp only [Bool.false_eq_true, ite_false, Feed.facing_facing]
    rw [bind_of_ok separated]
    simpa only [Blanks.none, WrittenString.quoted, List.nil_append, List.cons_append, List.append_assoc] using rest
  | false =>
    obtain ⟨before, other⟩ := takeIf_other blank (show isSpace 0x2C = false from rfl)
      (show (0x2C : UInt8) ≠ 0x7D by decide) (nameBytes name ++ tail) offset
    obtain ⟨between, comma⟩ := expect_found .none (show isSpace 0x2C = false from rfl)
      (nameBytes name ++ tail) before
    obtain ⟨offset', rest⟩ := read name.before between
    refine ⟨offset', ?_⟩
    have separated : separate (feed.facing (0x2C :: (nameBytes name ++ tail)) before) =
        .ok () (feed.begun.facing (nameBytes name ++ tail) between) := by
      rw [separate_eq, Feed.facing_level, first, if_neg Bool.false_ne_true, Feed.facing_begun]
      exact reading_ok comma
    simp only [separator, Bool.false_eq_true, ite_false, List.singleton_append]
    rw [bind_of_ok (reading_ok other)]
    simp only [Bool.false_eq_true, ite_false, Feed.facing_facing]
    rw [bind_of_ok separated]
    simpa only [nameBytes, List.nil_append, List.cons_append, List.append_assoc] using rest

theorem of_separate {feed feed' : Feed} {bytes : List UInt8} {offset : Nat}
    (h : separate (feed.facing bytes offset) = .ok () feed') :
    ∃ (blank : Blanks) (rest : List UInt8) (offset' : Nat), feed' = feed.begun.facing rest offset' ∧
      bytes = (if feed.level.first then [] else blank.val ++ [0x2C]) ++ rest := by
  rw [separate_eq, Feed.facing_level, Feed.facing_begun] at h
  cases first : feed.level.first with
  | true =>
    rw [first, if_pos rfl] at h
    injection h with _ feed_eq
    exact ⟨.none, bytes, offset, feed_eq.symm, rfl⟩
  | false =>
    rw [first, if_neg Bool.false_ne_true] at h
    obtain ⟨input, comma, rfl⟩ := of_reading h
    obtain ⟨blank, rest, offset', rfl, rfl⟩ := of_expect comma
    refine ⟨blank, rest, offset', rfl, ?_⟩
    simp only [Bool.false_eq_true, ite_false, List.append_assoc, List.singleton_append]

theorem of_field {feed feed' : Feed} {bytes : List UInt8} {offset : Nat} {item : Option Item}
    (h : field (feed.facing bytes offset) = .ok item feed') :
    (∃ (blank : Blanks) (rest : List UInt8) (offset' : Nat), bytes = blank.val ++ 0x7D :: rest ∧
      leave (feed.facing rest offset') = .ok item feed') ∨
    ∃ (blank : Blanks) (name : Padded WrittenString) (rest : List UInt8) (offset' : Nat),
      bytes = blank.val ++ (separator feed.level.first ++ (nameBytes name ++ rest)) ∧
        fieldValue name.inner.text (feed.begun.facing rest offset') = .ok item feed' := by
  rw [field_eq] at h
  obtain ⟨found, middle, read, separates⟩ := exists_of_bind_ok h
  obtain ⟨input, taken, rfl⟩ := of_reading read
  obtain ⟨blank, rest, between, rfl, rfl⟩ := of_takeIf taken
  cases found with
  | true => exact .inl ⟨blank, rest, between, rfl, separates⟩
  | false =>
    right
    simp only [Bool.false_eq_true, ite_false] at separates
    obtain ⟨_, middle, separated, names⟩ := exists_of_bind_ok separates
    obtain ⟨comma, behindComma, offset', rfl, rfl⟩ := of_separate separated
    obtain ⟨text, middle, readName, colons⟩ := exists_of_bind_ok names
    obtain ⟨input, quoted, rfl⟩ := of_reading readName
    obtain ⟨before, string, behindName, offset', rfl, rfl, rfl⟩ := of_readString quoted
    obtain ⟨_, middle, readColon, values⟩ := exists_of_bind_ok colons
    obtain ⟨input, colon, rfl⟩ := of_reading readColon
    obtain ⟨after, behindColon, offset', rfl, rfl⟩ := of_expect colon
    refine ⟨if feed.level.first then blank else blank.append comma, ⟨before, string, after⟩, behindColon,
      offset', ?_, values⟩
    cases feed.level.first <;>
      simp only [Blanks.append, separator, nameBytes, ite_true, Bool.false_eq_true, ite_false,
        List.append_assoc, List.nil_append, List.cons_append]

theorem fieldValue_events (feed : Feed) (before : Blanks) (rest : List UInt8) (offset : Nat) :
    ∃ offset', fieldValue "eventList" (feed.facing (before.val ++ 0x5B :: rest) offset) =
      .ok none { feed.facing rest offset' with sawEventList := true, phase := .events true } := by
  obtain ⟨offset', taken⟩ := takeIf_found before (show isSpace 0x5B = false from rfl) rest offset
  refine ⟨offset', ?_⟩
  rw [fieldValue, enterEvents, if_pos rfl, bind_of_ok (reading_ok taken)]
  rfl

theorem fieldValue_container (feed : Feed) {name : String} (isBody : bodyContainers.contains name = true)
    (before : Blanks) (rest : List UInt8) (offset : Nat) :
    ∃ offset', fieldValue name (feed.facing (before.val ++ 0x7B :: rest) offset) =
      .ok none { feed.facing rest offset' with inner := (name, ⟨[], true⟩) :: feed.inner } := by
  obtain ⟨offset', taken⟩ := takeIf_found before (show isSpace 0x7B = false from rfl) rest offset
  have notEvents : name ≠ "eventList" := by
    rintro rfl
    exact absurd isBody (by decide)
  have passed : enterEvents name (feed.facing (before.val ++ 0x7B :: rest) offset) =
      .ok false (feed.facing (before.val ++ 0x7B :: rest) offset) := by
    rw [enterEvents, if_neg notEvents]
    rfl
  refine ⟨offset', ?_⟩
  rw [fieldValue, bind_of_ok passed, if_neg Bool.false_ne_true, enterContainer, if_pos isBody,
    bind_of_ok (reading_ok taken)]
  rfl

theorem enter_other (feed : Feed) (enters : Prop) [Decidable enters] {wanted b : UInt8}
    (space : isSpace b = false) (other : enters → b ≠ wanted) (blank : Blanks) (rest : List UInt8)
    (offset : Nat) :
    ∃ (blank' : Blanks) (offset' : Nat),
      (if enters then reading (takeIf wanted) else pure false) (feed.facing (blank.val ++ b :: rest) offset) =
        .ok false (feed.facing (blank'.val ++ b :: rest) offset') := by
  by_cases tried : enters
  · obtain ⟨offset', passed⟩ := takeIf_other blank space (other tried) rest offset
    refine ⟨.none, offset', ?_⟩
    rw [if_pos tried]
    exact reading_ok passed
  · refine ⟨blank, offset, ?_⟩
    rw [if_neg tried]
    rfl

theorem of_enter {feed feed' : Feed} {enters : Prop} [Decidable enters] {wanted : UInt8} {found : Bool}
    {bytes : List UInt8} {offset : Nat}
    (h : (if enters then reading (takeIf wanted) else pure false) (feed.facing bytes offset) = .ok found feed') :
    ∃ (blank : Blanks) (rest : List UInt8) (offset' : Nat), feed' = feed.facing rest offset' ∧
      bytes = blank.val ++ ((if found then [wanted] else []) ++ rest) := by
  by_cases tried : enters
  · rw [if_pos tried] at h
    obtain ⟨input, taken, rfl⟩ := of_reading h
    obtain ⟨blank, rest, offset', rfl, split⟩ := of_takeIf taken
    exact ⟨blank, rest, offset', rfl, split⟩
  · rw [if_neg tried] at h
    injection h with found_eq feed_eq
    subst found_eq
    exact ⟨.none, bytes, offset, feed_eq.symm, rfl⟩

def storedValue (name : String) : Feeding (Option Item) := do
  let value ← heldValue
  modify (Feed.store name value)
  pure none

/-- A value is kept when it begins neither an event list nor a container that is entered. -/
theorem fieldValue_stored (feed : Feed) (name : String) (before : Blanks) (written : Written)
    (noEvents : name = "eventList" → ¬ written.Leads 0x5B)
    (noContainer : bodyContainers.contains name = true → ¬ written.Leads 0x7B) (rest : List UInt8) (offset : Nat) :
    ∃ (blank : Blanks) (offset' : Nat), fieldValue name (feed.facing (before.val ++ (written.bytes ++ rest)) offset) =
      storedValue name (feed.facing (blank.val ++ (written.bytes ++ rest)) offset') := by
  obtain ⟨b, tail, split, leads⟩ := written.exists_lead
  have notBracket : name = "eventList" → b ≠ 0x5B := fun tried same => noEvents tried (same ▸ leads)
  have notBrace : bodyContainers.contains name = true → b ≠ 0x7B :=
    fun tried same => noContainer tried (same ▸ leads)
  obtain ⟨blank, between, events⟩ := enter_other feed (name = "eventList") leads.starts.1 notBracket before
    (tail ++ rest) offset
  obtain ⟨blank', between', container⟩ := enter_other feed (bodyContainers.contains name = true)
    leads.starts.1 notBrace blank (tail ++ rest) between
  refine ⟨blank', between', ?_⟩
  rw [split, fieldValue, enterEvents, List.cons_append, bind_of_ok events, if_neg Bool.false_ne_true,
    enterContainer, bind_of_ok container, if_neg Bool.false_ne_true]
  rfl

theorem fieldValue_held (feed : Feed) (name : String) (before : Blanks) (written : Written)
    (noEvents : name = "eventList" → ¬ written.Leads 0x5B)
    (noContainer : bodyContainers.contains name = true → ¬ written.Leads 0x7B) {stop : UInt8}
    (ends : endsLiteral stop = true) (fits : written.bytes.length ≤ feed.limit)
    (deep : written.depth ≤ maxDepth) (readable : written.Readable) (rest : List UInt8) (offset : Nat) :
    ∃ offset', fieldValue name (feed.facing (before.val ++ (written.bytes ++ stop :: rest)) offset) =
      .ok none ((feed.store name written.value).facing (stop :: rest) offset') := by
  obtain ⟨blank, between, stored⟩ := fieldValue_stored feed name before written noEvents noContainer
    (stop :: rest) offset
  obtain ⟨offset', held⟩ := heldValue_found feed blank written ends fits deep readable rest between
  refine ⟨offset', ?_⟩
  rw [stored, storedValue, bind_of_ok held, ← Feed.facing_store]
  rfl

theorem of_fieldValue {feed feed' : Feed} {name : String} {bytes : List UInt8} {offset : Nat}
    {item : Option Item} (h : fieldValue name (feed.facing bytes offset) = .ok item feed') :
    item = none ∧
      ((∃ (before : Blanks) (rest : List UInt8) (offset' : Nat), bytes = before.val ++ 0x5B :: rest ∧
        feed' = { feed.facing rest offset' with sawEventList := true, phase := .events true }) ∨
      (∃ (before : Blanks) (rest : List UInt8) (offset' : Nat), bytes = before.val ++ 0x7B :: rest ∧
        feed' = { feed.facing rest offset' with inner := (name, ⟨[], true⟩) :: feed.inner }) ∨
      ∃ (before after : Blanks) (written : Written) (rest : List UInt8) (offset' : Nat),
        bytes = before.val ++ (written.bytes ++ (after.val ++ rest)) ∧
          feed' = (feed.store name written.value).facing rest offset') := by
  obtain ⟨found, middle, events, others⟩ := exists_of_bind_ok h
  obtain ⟨before, rest, between, rfl, rfl⟩ := of_enter events
  cases found with
  | true =>
    injection others with item_eq feed_eq
    exact ⟨item_eq.symm, .inl ⟨before, rest, between, rfl, feed_eq.symm⟩⟩
  | false =>
    simp only [Bool.false_eq_true, ite_false, List.nil_append] at others ⊢
    obtain ⟨found, middle, container, holds⟩ := exists_of_bind_ok others
    obtain ⟨before', rest', between', rfl, rfl⟩ := of_enter container
    have joined : ∀ bytes, before.val ++ (before'.val ++ bytes) = (before.append before').val ++ bytes :=
      fun bytes => (List.append_assoc _ _ _).symm
    cases found with
    | true =>
      injection holds with item_eq feed_eq
      exact ⟨item_eq.symm, .inr (.inl ⟨_, rest', between', joined _, feed_eq.symm⟩)⟩
    | false =>
      simp only [Bool.false_eq_true, ite_false, List.nil_append] at holds ⊢
      obtain ⟨value, middle, held, stores⟩ := exists_of_bind_ok holds
      obtain ⟨blank, after, written, rest, offset', rfl, rfl, rfl⟩ := of_heldValue held
      injection stores with item_eq feed_eq
      refine ⟨item_eq.symm, .inr (.inr ⟨(before.append before').append blank, after, written, rest, offset',
        ?_, ?_⟩)⟩
      · rw [joined, ← List.append_assoc]
        rfl
      · rw [← feed_eq, Feed.facing_store]

def yielded (written : Written) : Option Item := written.value.eventType?.map fun _ => .event written.value

theorem entry_close (feed : Feed) (first : Bool) (blank : Blanks) (rest : List UInt8) (offset : Nat) :
    ∃ offset', entry first (feed.facing (blank.val ++ 0x5D :: rest) offset) =
      if feed.bareArray then finish (feed.facing rest offset')
      else .ok none { feed.facing rest offset' with phase := .fields } := by
  obtain ⟨offset', taken⟩ := takeIf_found blank (show isSpace 0x5D = false from rfl) rest offset
  refine ⟨offset', ?_⟩
  rw [entry, bind_of_ok (reading_ok taken)]
  simp only [ite_true, bind, EStateM.bind, get_apply, Feed.facing]
  split <;> rfl

theorem entry_listEnd (feed : Feed) (listed : feed.bareArray = false) (first : Bool) (blank : Blanks)
    (rest : List UInt8) (offset : Nat) :
    ∃ offset', entry first (feed.facing (blank.val ++ 0x5D :: rest) offset) =
      .ok none { feed.facing rest offset' with phase := .fields } := by
  obtain ⟨offset', closed⟩ := entry_close feed first blank rest offset
  rw [if_neg (by rw [listed]; exact Bool.false_ne_true)] at closed
  exact ⟨offset', closed⟩

def element : Feeding (Option Item) := do
  setPhase (.events false)
  let value ← heldValue
  pure (value.eventType?.map fun _ => .event value)

theorem element_found (feed : Feed) (before : Blanks) (written : Written) {stop : UInt8}
    (ends : endsLiteral stop = true) (fits : written.bytes.length ≤ feed.limit)
    (deep : written.depth ≤ maxDepth) (readable : written.Readable) (rest : List UInt8) (offset : Nat) :
    ∃ offset', element (feed.facing (before.val ++ (written.bytes ++ stop :: rest)) offset) =
      .ok (yielded written) { feed.facing (stop :: rest) offset' with phase := .events false } := by
  have phased : setPhase (.events false) (feed.facing (before.val ++ (written.bytes ++ stop :: rest)) offset) =
      .ok () (Feed.facing { feed with phase := .events false } (before.val ++ (written.bytes ++ stop :: rest))
        offset) := rfl
  obtain ⟨offset', held⟩ := heldValue_found { feed with phase := .events false } before written ends fits
    deep readable rest offset
  refine ⟨offset', ?_⟩
  rw [element, bind_of_ok phased, bind_of_ok held]
  rfl

theorem of_element {feed feed' : Feed} {bytes : List UInt8} {offset : Nat} {item : Option Item}
    (h : element (feed.facing bytes offset) = .ok item feed') :
    ∃ (before after : Blanks) (written : Written) (rest : List UInt8) (offset' : Nat),
      bytes = before.val ++ (written.bytes ++ (after.val ++ rest)) ∧ item = yielded written ∧
        feed' = { feed.facing rest offset' with phase := .events false } := by
  have held : ∃ value middle, heldValue (Feed.facing { feed with phase := .events false } bytes offset) =
      .ok value middle ∧ item = value.eventType?.map (fun _ => .event value) ∧ feed' = middle := by
    obtain ⟨_, middle, phased, holds⟩ := exists_of_bind_ok h
    injection phased with _ middle_eq
    subst middle_eq
    obtain ⟨value, middle, held, yields⟩ := exists_of_bind_ok holds
    injection yields with item_eq feed_eq
    exact ⟨value, middle, held, item_eq.symm, feed_eq.symm⟩
  obtain ⟨value, middle, held, rfl, rfl⟩ := held
  obtain ⟨before, after, written, rest, offset', rfl, rfl, rfl⟩ := of_heldValue held
  exact ⟨before, after, written, rest, offset', rfl, rfl, rfl⟩

theorem entry_begins (feed : Feed) (first : Bool) (blank before : Blanks) (written : Written) (rest : List UInt8)
    (offset : Nat) :
    ∃ (between : Blanks) (offset' : Nat), entry first (feed.facing (blank.val ++ (separator first ++ (before.val ++
        (written.bytes ++ rest)))) offset) =
      element (feed.facing (between.val ++ (written.bytes ++ rest)) offset') := by
  cases first with
  | true =>
    obtain ⟨b, tail, split, leads⟩ := written.exists_lead
    obtain ⟨between, other⟩ := takeIf_other (blank.append before) leads.starts.1 leads.starts.2.2.1
      (tail ++ rest) offset
    refine ⟨.none, between, ?_⟩
    have text : blank.val ++ (separator true ++ (before.val ++ (written.bytes ++ rest))) =
        (blank.append before).val ++ b :: (tail ++ rest) := by
      simp only [Blanks.append, separator, ite_true, split, List.nil_append, List.cons_append, List.append_assoc]
    rw [text, entry, bind_of_ok (reading_ok other), split]
    rfl
  | false =>
    obtain ⟨between, other⟩ := takeIf_other blank (show isSpace 0x2C = false from rfl)
      (show (0x2C : UInt8) ≠ 0x5D by decide) (before.val ++ (written.bytes ++ rest)) offset
    obtain ⟨offset', comma⟩ := expect_found .none (show isSpace 0x2C = false from rfl)
      (before.val ++ (written.bytes ++ rest)) between
    refine ⟨before, offset', ?_⟩
    have separated : reading (expect 0x2C) (feed.facing (0x2C :: (before.val ++ (written.bytes ++ rest)))
        between) = .ok () (feed.facing (before.val ++ (written.bytes ++ rest)) offset') :=
      reading_ok comma
    simp only [separator, Bool.false_eq_true, ite_false, List.singleton_append]
    rw [entry, bind_of_ok (reading_ok other), Feed.facing_facing]
    simp only [Bool.false_eq_true, ite_false, Bool.not_false, ite_true]
    rw [bind_of_ok separated]
    rfl

theorem entry_element (feed : Feed) (first : Bool) (blank before : Blanks) (written : Written) {stop : UInt8}
    (ends : endsLiteral stop = true) (fits : written.bytes.length ≤ feed.limit)
    (deep : written.depth ≤ maxDepth) (readable : written.Readable) (rest : List UInt8) (offset : Nat) :
    ∃ offset', entry first (feed.facing (blank.val ++ (separator first ++ (before.val ++
        (written.bytes ++ stop :: rest)))) offset) =
      .ok (yielded written) { feed.facing (stop :: rest) offset' with phase := .events false } := by
  obtain ⟨between, start, begins⟩ := entry_begins feed first blank before written (stop :: rest) offset
  obtain ⟨offset', found⟩ := element_found feed between written ends fits deep readable rest start
  exact ⟨offset', begins.trans found⟩

theorem of_entry {feed feed' : Feed} {first : Bool} {bytes : List UInt8} {offset : Nat} {item : Option Item}
    (h : entry first (feed.facing bytes offset) = .ok item feed') :
    (∃ (blank : Blanks) (rest : List UInt8) (offset' : Nat), bytes = blank.val ++ 0x5D :: rest ∧
      (if feed.bareArray then finish (feed.facing rest offset')
        else .ok none { feed.facing rest offset' with phase := .fields }) = .ok item feed') ∨
    ∃ (blank before after : Blanks) (written : Written) (rest : List UInt8) (offset' : Nat),
      bytes = blank.val ++ (separator first ++ (before.val ++ (written.bytes ++ (after.val ++ rest)))) ∧
        item = yielded written ∧ feed' = { feed.facing rest offset' with phase := .events false } := by
  obtain ⟨found, middle, read, follows⟩ := exists_of_bind_ok h
  obtain ⟨input, taken, rfl⟩ := of_reading read
  obtain ⟨blank, behind, between, rfl, rfl⟩ := of_takeIf taken
  cases found with
  | true =>
    refine .inl ⟨blank, behind, between, rfl, ?_⟩
    simp only [ite_true, bind, EStateM.bind, get_apply] at follows
    rw [← follows]
    simp only [Feed.facing]
    split <;> rfl
  | false =>
    right
    cases first with
    | true =>
      obtain ⟨before, after, written, rest, offset', rfl, rfl, rfl⟩ := @of_element feed _ _ _ _ follows
      exact ⟨blank, before, after, written, rest, offset', rfl, rfl, rfl⟩
    | false =>
      simp only [Bool.false_eq_true, ite_false, Bool.not_false, ite_true] at follows
      obtain ⟨_, middle, readComma, elements⟩ := exists_of_bind_ok follows
      obtain ⟨input, comma, rfl⟩ := @of_reading _ _ feed _ _ _ _ readComma
      obtain ⟨blank', behind', between', rfl, rfl⟩ := of_expect comma
      obtain ⟨before, after, written, rest, offset', rfl, rfl, rfl⟩ := @of_element feed _ _ _ _ elements
      refine ⟨blank.append blank', before, after, written, rest, offset', ?_, rfl, rfl⟩
      simp only [Blanks.append, separator, Bool.false_eq_true, ite_false, List.append_assoc, List.nil_append,
        List.singleton_append]

end Feeding

end EpcisDigest.Json
