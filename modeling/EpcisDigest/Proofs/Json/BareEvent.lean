import EpcisDigest.Hashing
import EpcisDigest.Proofs.Json.Context
import EpcisDigest.Proofs.Json.Demand
import EpcisDigest.Proofs.Json.Extraction
import EpcisDigest.Proofs.Json.Unreadable

namespace EpcisDigest.Json

open Reading Input Feeding

/-- The feed is among the members of its document, of which it has stored these, and no event list is among them. -/
structure Feed.Storing (limit : Nat) (stored : Object) (feed : Feed) : Prop where
  limited : feed.limit = limit
  phase : feed.phase = .fields
  outermost : feed.inner = []
  stored : feed.header.stored = stored
  noEvents : feed.sawEventList = false
  listed : feed.bareArray = false

namespace Feed.Storing

variable {limit : Nat} {stored : Object} {feed : Feed}

theorem begun (storing : feed.Storing limit stored) : feed.begun.Storing limit stored := by
  obtain ⟨input, size, limit, phase, header, inner, saw, bare⟩ := feed
  obtain ⟨limited, isFields, outermost, same, noEvents, listed⟩ := storing
  dsimp only at limited isFields outermost same noEvents listed
  subst outermost
  exact ⟨limited, isFields, rfl, same, noEvents, listed⟩

theorem store (storing : feed.Storing limit stored) (name : String) (value : Value) :
    (feed.store name value).Storing limit (Entries.put name value stored) := by
  obtain ⟨input, size, limit, phase, header, inner, saw, bare⟩ := feed
  obtain ⟨limited, isFields, outermost, same, noEvents, listed⟩ := storing
  dsimp only at limited isFields outermost same noEvents listed
  subst outermost same
  exact ⟨limited, isFields, rfl, rfl, noEvents, listed⟩

end Feed.Storing

structure Storable (limit : Nat) (member : Padded WrittenString × Padded Written) : Prop where
  stored : member.1.inner.text ∉ "eventList" :: bodyContainers
  fits : member.2.inner.bytes.length ≤ limit
  deep : member.2.inner.depth ≤ maxDepth

section Members

variable {limit : Nat} {stored : Object} {feed : Feed} {name : Padded WrittenString} {before after : Blanks}
  {written : Written} {stop : UInt8}

theorem turn_member (phase : feed.phase = .fields) (blank : Blanks)
    (isStored : name.inner.text ∉ "eventList" :: bodyContainers) (before : Blanks) (written : Written)
    (rest : List UInt8) (offset : Nat) :
    ∃ (between : Blanks) (offset' : Nat),
      turn (feed.facing (blank.val ++ (separator feed.level.first ++ (nameBytes name ++ (before.val ++
          (written.bytes ++ rest))))) offset) =
        storedValue name.inner.text (feed.begun.facing (between.val ++ (written.bytes ++ rest)) offset') := by
  obtain ⟨notEvents, notContainer⟩ := not_or.mp (mt List.mem_cons.mpr isStored)
  obtain ⟨middle, named⟩ := field_member feed blank name (before.val ++ (written.bytes ++ rest)) offset
  obtain ⟨between, offset', valued⟩ := fieldValue_stored feed.begun name.inner.text before written
    (fun tried => absurd tried notEvents) (fun tried => absurd (List.contains_iff_mem.mp tried) notContainer)
    rest middle
  refine ⟨between, offset', ?_⟩
  rw [← valued, ← named]
  exact turn_fields phase

theorem turn_stored (storing : feed.Storing limit stored)
    (storable : Storable limit (name, ⟨before, written, after⟩)) (readable : written.Readable)
    (ends : endsLiteral stop = true) (blank : Blanks) (rest : List UInt8) (offset : Nat) :
    ∃ offset', turn (feed.facing (blank.val ++ (separator feed.level.first ++ (nameBytes name ++ (before.val ++
        (written.bytes ++ stop :: rest))))) offset) =
      .ok none ((feed.begun.store name.inner.text written.value).facing (stop :: rest) offset') := by
  obtain ⟨isStored, fits, deep⟩ := storable
  rw [← storing.begun.limited] at fits
  obtain ⟨between, middle, member⟩ := turn_member storing.phase blank isStored before written (stop :: rest) offset
  obtain ⟨offset', held⟩ := heldValue_found feed.begun between written ends fits deep readable rest middle
  refine ⟨offset', ?_⟩
  rw [member, storedValue, bind_of_ok held, ← Feed.facing_store]
  rfl

theorem turn_refused (storing : feed.Storing limit stored)
    (storable : Storable limit (name, ⟨before, written, after⟩)) (unreadable : ¬ written.Readable)
    (ends : endsLiteral stop = true) (blank : Blanks) (rest : List UInt8) (offset : Nat) :
    ∃ feed', turn (feed.facing (blank.val ++ (separator feed.level.first ++ (nameBytes name ++ (before.val ++
        (written.bytes ++ stop :: rest))))) offset) = .error .invalidValue feed' := by
  obtain ⟨isStored, fits, deep⟩ := storable
  rw [← storing.begun.limited] at fits
  obtain ⟨between, middle, member⟩ := turn_member storing.phase blank isStored before written (stop :: rest) offset
  obtain ⟨feed', refused⟩ := heldValue_refused between ends fits deep unreadable rest middle
  refine ⟨feed', ?_⟩
  rw [member, storedValue, bind_of_error refused]

theorem turn_last (storing : feed.Storing limit stored)
    (typed : (Value.object stored).eventType?.any isEventType = true) (blank after : Blanks) (offset : Nat) :
    ∃ feed', turn (feed.facing (blank.val ++ 0x7D :: after.val) offset) =
      .ok (some (.event (.object stored))) feed' ∧ feed'.phase = .done ∧ feed'.header.stored = stored := by
  obtain ⟨between, closed⟩ := field_close feed blank after.val offset
  obtain ⟨offset', finished⟩ := finish_found feed after between
  have closing : feed.closing = some (.event (.object stored)) := by
    simp only [Feed.closing, storing.listed, storing.noEvents, storing.stored, typed, Bool.false_eq_true, ite_false,
      Bool.not_false, Bool.and_self, ite_true]
  have last : turn (feed.facing (blank.val ++ 0x7D :: after.val) offset) =
      field (feed.facing (blank.val ++ 0x7D :: after.val) offset) := turn_fields storing.phase
  rw [last, closed, leave_outermost storing.outermost, finished, closing]
  exact ⟨_, rfl, rfl, storing.stored⟩

end Members

def storedWith (stored : Object) (members : WrittenMembers) : Object :=
  (memberValues members).foldl (fun stored binding => Entries.put binding.1 binding.2 stored) stored

section Runs

variable {limit turns : Nat} {members : WrittenMembers} {feed : Feed} {stored : Object}

theorem Feed.begun_store_first (feed : Feed) (name : String) (value : Value) :
    (feed.begun.store name value).level.first = false := by
  obtain ⟨input, size, limit, phase, header, inner, saw, bare⟩ := feed
  cases inner <;> rfl

theorem Feed.Storing.notDone (storing : feed.Storing limit stored) (bytes : List UInt8) (offset : Nat) :
    (feed.facing bytes offset).phase ≠ .done := by
  have phase : (feed.facing bytes offset).phase = .fields := storing.phase
  rw [phase]
  exact fun h => by cases h

/-- Members that can all be read are stored one after the other, and make the event. -/
theorem pullWithin_members (storable : ∀ member ∈ members, Storable limit member)
    (readable : MembersReadable members) (storing : feed.Storing limit stored)
    (typed : (Value.object (storedWith stored members)).eventType?.any isEventType = true)
    (enough : members.length < turns) (blank after : Blanks) (offset : Nat) :
    ∃ feed', pullWithin turns (feed.facing (blank.val ++ (membersBytes feed.level.first members ++ 0x7D :: after.val))
        offset) = .ok (some (.event (.object (storedWith stored members)))) feed' ∧ feed'.phase = .done ∧
      feed'.header.stored = storedWith stored members := by
  induction members generalizing feed stored turns blank offset with
  | nil =>
    obtain ⟨turns, rfl⟩ : ∃ left, turns = left + 1 := ⟨turns - 1, by rw [List.length_nil] at enough; omega⟩
    obtain ⟨feed', last, ended⟩ := turn_last storing typed blank after offset
    refine ⟨feed', ?_, ended⟩
    rw [membersBytes, List.nil_append, pullWithin_succ (storing.notDone _ _), last]
    rfl
  | cons member members ih =>
    obtain ⟨name, before, written, behind⟩ := member
    obtain ⟨first, others⟩ := readable
    rw [List.length_cons] at enough
    obtain ⟨turns, rfl⟩ : ∃ left, turns = left + 1 := ⟨turns - 1, by omega⟩
    obtain ⟨stop, rest, next, ends⟩ := stop_member behind members after.val
    obtain ⟨offset', step⟩ := turn_stored storing (storable _ List.mem_cons_self) first ends blank rest offset
    obtain ⟨feed', pulled, ended⟩ := ih (fun member later => storable member (List.mem_cons_of_mem _ later)) others
      (storing.begun.store name.inner.text written.value) typed (Nat.lt_of_succ_lt_succ enough) behind offset'
    refine ⟨feed', ?_, ended⟩
    rw [Feed.begun_store_first, next] at pulled
    simp only [membersBytes, List.append_assoc]
    rw [next, pullWithin_succ (storing.notDone _ _), step]
    exact pulled

/-- A member that cannot be read ends the walk, whatever has been stored before. -/
theorem pullWithin_membersRefused (storable : ∀ member ∈ members, Storable limit member)
    (unreadable : ¬ MembersReadable members) (storing : feed.Storing limit stored) (enough : members.length < turns)
    (blank after : Blanks) (offset : Nat) :
    ∃ feed', pullWithin turns (feed.facing (blank.val ++ (membersBytes feed.level.first members ++ 0x7D :: after.val))
      offset) = .error .invalidValue feed' := by
  induction members generalizing feed stored turns blank offset with
  | nil => exact absurd trivial unreadable
  | cons member members ih =>
    obtain ⟨name, before, written, behind⟩ := member
    rw [List.length_cons] at enough
    obtain ⟨turns, rfl⟩ : ∃ left, turns = left + 1 := ⟨turns - 1, by omega⟩
    obtain ⟨stop, rest, next, ends⟩ := stop_member behind members after.val
    simp only [membersBytes, List.append_assoc]
    rw [next, pullWithin_succ (storing.notDone _ _)]
    -- The first member that cannot be read ends the walk; a member before it is stored.
    by_cases readable : written.Readable
    · have others : ¬ MembersReadable members := fun others => unreadable ⟨readable, others⟩
      obtain ⟨offset', step⟩ := turn_stored storing (storable _ List.mem_cons_self) readable ends blank rest offset
      obtain ⟨feed', refused⟩ := ih (fun member later => storable member (List.mem_cons_of_mem _ later)) others
        (storing.begun.store name.inner.text written.value) (Nat.lt_of_succ_lt_succ enough) behind offset'
      refine ⟨feed', ?_⟩
      rw [Feed.begun_store_first, next] at refused
      rw [step]
      exact refused
    · obtain ⟨feed', step⟩ := turn_refused storing (storable _ List.mem_cons_self) readable ends blank rest offset
      refine ⟨feed', ?_⟩
      rw [step]

end Runs

section Object

variable {limit : Nat} {inside : Blanks} {members : WrittenMembers}

theorem member_within {member : Padded WrittenString × Padded Written} (isMember : member ∈ members) (first : Bool) :
    member.2.inner.bytes.length ≤ (membersBytes first members).length ∧
      member.2.inner.depth ≤ membersDepth members := by
  induction members generalizing first with
  | nil => cases isMember
  | cons head members ih =>
    obtain ⟨name, before, written, after⟩ := head
    rw [membersDepth]
    simp only [membersBytes, List.length_append]
    rcases List.mem_cons.mp isMember with rfl | later
    · dsimp only
      omega
    · have within := ih later false
      omega

theorem storable_members (fits : (Written.object inside members).bytes.length ≤ limit)
    (deep : (Written.object inside members).depth ≤ maxDepth)
    (stored : ∀ member ∈ members, member.1.inner.text ∉ "eventList" :: bodyContainers) :
    ∀ member ∈ members, Storable limit member := by
  intro member isMember
  obtain ⟨shorter, flatter⟩ := member_within isMember true
  simp only [Written.bytes, List.length_cons, List.length_append] at fits
  rw [Written.depth] at deep
  exact ⟨stored member isMember, by omega, by omega⟩

variable (plain : (memberValues members).head?.map Prod.fst ≠ some numberName)

include plain

theorem object_readable_iff : (Written.object inside members).Readable ↔ MembersReadable members :=
  ⟨fun readable => readable.2, fun readable => ⟨fun named => absurd named plain, readable⟩⟩

theorem object_value : (Written.object inside members).value = .object (storedWith [] members) := by
  have notNumber : numberText? (memberValues members) = none := by
    unfold numberText?
    split
    · rename_i name text same
      rw [same] at plain
      exact if_neg fun named => plain (congrArg some named)
    · rfl
  rw [Written.value, ofMembers, notNumber]
  rfl

end Object

theorem pullWithin_opened {b : UInt8} (opens : b = 0x7B ∨ b = 0x5B) (before : Blanks) {rest bytes : List UInt8}
    (text : bytes = before.val ++ b :: rest) (limit turns : Nat) :
    ∃ offset, pullWithin (turns + 1) (Feed.ofSource (Source.whole bytes) limit) =
      pullWithin turns (((Feed.ofSource (Source.whole bytes) limit).opened b).facing rest offset) := by
  subst text
  obtain ⟨offset, started⟩ := start_found (Feed.ofSource (Source.whole (before.val ++ b :: rest)) limit) false
    before opens rest
  have step : turn (Feed.ofSource (Source.whole (before.val ++ b :: rest)) limit) =
      .ok none (((Feed.ofSource (Source.whole (before.val ++ b :: rest)) limit).facing rest offset).opened b) :=
    turn_start rfl started
  refine ⟨offset, ?_⟩
  rw [pullWithin_succ (fun h => by cases h), step]
  rcases opens with rfl | rfl <;> rfl

def bareBytes (before : Blanks) (written : Written) (after : Blanks) : List UInt8 :=
  before.val ++ (written.bytes ++ after.val)

def arrayBytes (before : Blanks) (written : Written) (after : Blanks) : List UInt8 :=
  0x5B :: (bareBytes before written after ++ [0x5D])

section Bare

variable {limit : Nat} {before inside after : Blanks} {members : WrittenMembers}

theorem bareBytes_object : bareBytes before (.object inside members) after =
    before.val ++ 0x7B :: (inside.val ++ (membersBytes true members ++ 0x7D :: after.val)) := by
  simp only [bareBytes, Written.bytes, List.cons_append, List.append_assoc, List.nil_append]

theorem members_lt_bareBytes : members.length < (bareBytes before (.object inside members) after).length + 1 := by
  have fewer := length_le_membersBytes true members
  simp only [bareBytes, Written.bytes, List.length_append, List.length_cons]
  omega

theorem next_bare (before inside after : Blanks) (storable : ∀ member ∈ members, Storable limit member)
    (readable : MembersReadable members)
    (typed : (Value.object (storedWith [] members)).eventType?.any isEventType = true) :
    ∃ feed, (Feed.ofSource (Source.whole (bareBytes before (.object inside members) after)) limit).next =
        (.ok (some (.event (.object (storedWith [] members)))), feed) ∧
      feed.phase = .done ∧ feed.header.stored = storedWith [] members := by
  let start := Feed.ofSource (Source.whole (bareBytes before (.object inside members) after)) limit
  obtain ⟨offset, opened⟩ := pullWithin_opened (.inl rfl) before bareBytes_object limit (start.size + 1)
  have storing : (start.opened 0x7B).Storing limit [] := ⟨rfl, rfl, rfl, rfl, rfl, rfl⟩
  obtain ⟨feed, pulled, ended⟩ := pullWithin_members storable readable storing typed members_lt_bareBytes inside
    after offset
  refine ⟨feed, ?_, ended⟩
  have whole : pullWithin (start.size + 2) start = .ok (some (.event (.object (storedWith [] members)))) feed :=
    opened.trans pulled
  rw [Feed.next, whole]

theorem next_bareRefused (before inside after : Blanks) (storable : ∀ member ∈ members, Storable limit member)
    (unreadable : ¬ MembersReadable members) :
    ∃ feed, (Feed.ofSource (Source.whole (bareBytes before (.object inside members) after)) limit).next =
      (.error .invalidValue, feed) := by
  let start := Feed.ofSource (Source.whole (bareBytes before (.object inside members) after)) limit
  obtain ⟨offset, opened⟩ := pullWithin_opened (.inl rfl) before bareBytes_object limit (start.size + 1)
  have storing : (start.opened 0x7B).Storing limit [] := ⟨rfl, rfl, rfl, rfl, rfl, rfl⟩
  obtain ⟨feed, pulled⟩ := pullWithin_membersRefused storable unreadable storing members_lt_bareBytes inside after
    offset
  have whole : pullWithin (start.size + 2) start = .error .invalidValue feed := opened.trans pulled
  exact ⟨feed.cancel, by rw [Feed.next, whole]⟩

end Bare

section Array

variable {limit : Nat} {written : Written}

theorem arrayBytes_stop (before : Blanks) (written : Written) (after : Blanks) :
    ∃ stop rest, after.val ++ [0x5D] = stop :: rest ∧ endsLiteral stop = true ∧
      arrayBytes before written after = Blanks.none.val ++ 0x5B :: (Blanks.none.val ++ (separator true ++ (before.val ++
        (written.bytes ++ stop :: rest)))) := by
  have closed : Delimited (after.val ++ [0x5D]) := delimited_blanks after (delimited_cons (b := 0x5D) rfl)
  obtain ⟨stop, rest, behind, ends⟩ := closed.exists_stop (by simp)
  refine ⟨stop, rest, behind, ends, ?_⟩
  rw [← behind]
  simp only [arrayBytes, bareBytes, Blanks.none, separator, ite_true, List.nil_append, List.append_assoc]

theorem next_arrayEnd {feed : Feed} {first : Bool} (phase : feed.phase = .events first) (bare : feed.bareArray = true)
    (after : Blanks) (offset : Nat) :
    ∃ feed', (feed.facing (after.val ++ [0x5D]) offset).next = (.ok none, feed') := by
  obtain ⟨between, closed⟩ := entry_close feed first after [] offset
  obtain ⟨offset', finished⟩ := finish_found feed .none between
  have nothing : feed.closing = none := if_pos bare
  have entered : turn (feed.facing (after.val ++ [0x5D]) offset) =
      entry first (feed.facing (after.val ++ [0x5D]) offset) := turn_events phase
  have step : turn (feed.facing (after.val ++ [0x5D]) offset) =
      .ok none { feed.facing [] offset' with phase := .done } := by
    rw [← nothing, ← finished, entered]
    exact closed.trans (if_pos bare)
  have notDone : (feed.facing (after.val ++ [0x5D]) offset).phase ≠ .done := by
    intro ended
    cases phase.symm.trans ended
  refine ⟨{ feed.facing [] offset' with phase := .done }, ?_⟩
  rw [Feed.next, pullWithin_succ notDone, step]
  dsimp only
  rw [pullWithin_done rfl]

theorem next_array (before after : Blanks) (fits : written.bytes.length ≤ limit) (deep : written.depth ≤ maxDepth)
    (readable : written.Readable) (typed : (written.value.eventType?).isSome = true) :
    ∃ feed feed', (Feed.ofSource (Source.whole (arrayBytes before written after)) limit).next =
        (.ok (some (.event written.value)), feed) ∧
      feed.next = (.ok none, feed') ∧ feed.header.stored = [] := by
  let start := Feed.ofSource (Source.whole (arrayBytes before written after)) limit
  obtain ⟨stop, rest, behind, ends, text⟩ := arrayBytes_stop before written after
  obtain ⟨between, opened⟩ := pullWithin_opened (.inr rfl) .none text limit (start.size + 1)
  obtain ⟨offset, element⟩ := entry_element (start.opened 0x5B) true .none before written ends fits deep readable rest
    between
  have yields : yielded written = some (.event written.value) := by
    obtain ⟨type, named⟩ := Option.isSome_iff_exists.mp typed
    rw [yielded, named, Option.map_some]
  have step : turn ((start.opened 0x5B).facing (Blanks.none.val ++ (separator true ++ (before.val ++
      (written.bytes ++ stop :: rest)))) between) = .ok (some (.event written.value))
        { (start.opened 0x5B).facing (stop :: rest) offset with phase := .events false } := by
    rw [← yields]
    exact (turn_events rfl).trans element
  obtain ⟨feed', ended⟩ := @next_arrayEnd { start.opened 0x5B with phase := .events false } false rfl rfl after offset
  rw [behind] at ended
  refine ⟨_, feed', ?_, ended, rfl⟩
  have whole : pullWithin (start.size + 2) start = .ok (some (.event written.value))
      { (start.opened 0x5B).facing (stop :: rest) offset with phase := .events false } := by
    rw [opened, pullWithin_succ (fun h => by cases h), step]
  rw [Feed.next, whole]
  rfl

theorem next_arrayRefused (before after : Blanks) (fits : written.bytes.length ≤ limit)
    (deep : written.depth ≤ maxDepth) (unreadable : ¬ written.Readable) :
    ∃ feed, (Feed.ofSource (Source.whole (arrayBytes before written after)) limit).next =
      (.error .invalidValue, feed) := by
  let start := Feed.ofSource (Source.whole (arrayBytes before written after)) limit
  obtain ⟨stop, rest, behind, ends, text⟩ := arrayBytes_stop before written after
  obtain ⟨between, opened⟩ := pullWithin_opened (.inr rfl) .none text limit (start.size + 1)
  obtain ⟨feed, refused⟩ := @entry_refused written stop (start.opened 0x5B) true .none before ends fits deep unreadable
    rest between
  have step : turn ((start.opened 0x5B).facing (Blanks.none.val ++ (separator true ++ (before.val ++
      (written.bytes ++ stop :: rest)))) between) = .error .invalidValue feed := (turn_events rfl).trans refused
  have whole : pullWithin (start.size + 2) start = .error .invalidValue feed := by
    rw [opened, pullWithin_succ (fun h => by cases h), step]
  exact ⟨feed.cancel, by rw [Feed.next, whole]⟩

end Array

end EpcisDigest.Json

namespace EpcisDigest

open Json

namespace JsonHashing

variable {settings : Settings} {source : Source} {limit : Nat} {feed feed' : Feed}

/-- The results of a document that has one event and nothing behind it. -/
theorem hashJson_event {event : Value} (first : (Feed.ofSource source limit).next = (.ok (some (.event event)), feed))
    (second : feed.next = (.ok none, feed')) :
    hashJson settings source limit = [hashValue settings (boundNamespaces feed) event] := by
  have one : (ofSource source limit).next settings = (some (hashValue settings (boundNamespaces feed) event),
      ⟨feed, some (boundNamespaces feed), !(hashValue settings (boundNamespaces feed) event).isOk⟩) := by
    simp only [next, ofSource, Bool.false_eq_true, ite_false, first, Option.getD_none]
  have two : ∀ failed, ∃ hashing, next settings ⟨feed, some (boundNamespaces feed), failed⟩ = (none, hashing) := by
    intro failed
    cases failed with
    | true => exact ⟨_, rfl⟩
    | false =>
      simp only [next, Bool.false_eq_true, ite_false, second]
      exact ⟨_, rfl⟩
  obtain ⟨hashing, nothing⟩ := two (!(hashValue settings (boundNamespaces feed) event).isOk)
  simp only [hashJson, drain, take, one, nothing]

theorem hashJson_error {e : ReadError} (first : (Feed.ofSource source limit).next = (.error e, feed)) :
    hashJson settings source limit = [.error (.json e)] := by
  have one : (ofSource source limit).next settings = (some (.error (.json e)), ⟨feed, none, true⟩) := by
    simp only [next, ofSource, Bool.false_eq_true, ite_false, first]
  have nothing : next settings ⟨feed, none, true⟩ = (none, ⟨feed, none, true⟩) := rfl
  simp only [hashJson, drain, take, one, nothing]

/-- An event that is its own document has its context merged twice, which comes to the same. -/
theorem hashValue_bound {stored : Object} (same : feed.header.stored = stored) :
    hashValue settings (boundNamespaces feed) (.object stored) =
      hashValue settings NameTable.empty (.object stored) := by
  rw [hashValue, hashValue]
  have tree : eventTree settings (boundNamespaces feed) (.object stored) =
      eventTree settings NameTable.empty (.object stored) := by
    rw [boundNamespaces, same]
    cases found : Entries.get? "@context" stored with
    | none => rfl
    | some context => simp only [eventTree, Value.member?, found, mergeContext_again]
  rw [tree]

end JsonHashing

variable {limit : Nat} {before inside after : Blanks} {members : WrittenMembers}

/-- An event that is a document of its own has the one outcome that it has as the only item of an array: its results
    or an error, or `unsortable` where the run breaks down in both. -/
theorem hashJson_bareEvent (settings : Settings)
    (fits : (Written.object inside members).bytes.length ≤ limit)
    (deep : (Written.object inside members).depth ≤ maxDepth)
    (typed : (Written.object inside members).value.eventType?.any isEventType = true)
    (stored : ∀ member ∈ members, member.1.inner.text ∉ "eventList" :: bodyContainers)
    (plain : (memberValues members).head?.map Prod.fst ≠ some numberName) :
    ∃ outcome, hashJson settings (Source.whole (bareBytes before (.object inside members) after)) limit = [outcome] ∧
      hashJson settings (Source.whole (arrayBytes before (.object inside members) after)) limit = [outcome] := by
  have storable := storable_members fits deep stored
  have readable_iff : (Written.object inside members).Readable ↔ MembersReadable members := object_readable_iff plain
  have value : (Written.object inside members).value = .object (storedWith [] members) := object_value plain
  -- A value is refused in the object that is read as a whole just when it is refused as that of a member.
  by_cases readable : MembersReadable members
  · have named := Option.isSome_of_any typed
    obtain ⟨feed', feed'', array, nothing, fresh⟩ := next_array before after fits deep (readable_iff.mpr readable) named
    rw [value] at typed
    obtain ⟨feed, bare, ended, same⟩ := next_bare before inside after storable readable typed
    have unbound : JsonHashing.boundNamespaces feed' = NameTable.empty := by
      rw [JsonHashing.boundNamespaces, fresh]
      rfl
    refine ⟨_, JsonHashing.hashJson_event bare (Feed.next_done ended), ?_⟩
    rw [JsonHashing.hashJson_event array nothing, JsonHashing.hashValue_bound same, value, unbound]
  · obtain ⟨feed, bare⟩ := next_bareRefused before inside after storable readable
    obtain ⟨feed', array⟩ := next_arrayRefused before after fits deep (mt readable_iff.mp readable)
    exact ⟨_, JsonHashing.hashJson_error bare, JsonHashing.hashJson_error array⟩

def plainly (text : String) : WrittenString :=
  text.toList.filterMap fun c =>
    if allowed : 0x20 ≤ c.toNat ∧ c ≠ '"' ∧ c ≠ '\\' then some (.plain c allowed) else none

def plainMember (name : String) (value : Written) : Padded WrittenString × Padded Written :=
  (⟨.none, plainly name, .none⟩, ⟨.none, value, .none⟩)

def contextMembers : WrittenMembers :=
  [plainMember "@context" (.object .none [plainMember "ex" (.string (plainly "urn:a"))]),
    plainMember "type" (.string (plainly "ObjectEvent")), plainMember "ex:a" (.string (plainly "1"))]

theorem hashJson_bareEvent_context :
    (Written.object .none contextMembers).bytes.length ≤ 63 ∧ (Written.object .none contextMembers).depth ≤ maxDepth ∧
    (Written.object .none contextMembers).value.eventType?.any isEventType = true ∧
    (∀ member ∈ contextMembers, member.1.inner.text ∉ "eventList" :: bodyContainers) ∧
    (memberValues contextMembers).head?.map Prod.fst ≠ some numberName ∧
    ∃ outcome, hashJson Settings.standard
        (Source.whole (bareBytes .none (.object .none contextMembers) .none)) 63 = [outcome] ∧
      hashJson Settings.standard
        (Source.whole (arrayBytes .none (.object .none contextMembers) .none)) 63 = [outcome] := by
  have fits : (Written.object .none contextMembers).bytes.length ≤ 63 := by decide +kernel
  have deep : (Written.object .none contextMembers).depth ≤ maxDepth := by decide +kernel
  have typed : (Written.object .none contextMembers).value.eventType?.any isEventType = true := by decide +kernel
  have stored : ∀ member ∈ contextMembers, member.1.inner.text ∉ "eventList" :: bodyContainers := by decide +kernel
  have plain : (memberValues contextMembers).head?.map Prod.fst ≠ some numberName := by decide +kernel
  exact ⟨fits, deep, typed, stored, plain, hashJson_bareEvent Settings.standard fits deep typed stored plain⟩

def reservedMembers : WrittenMembers :=
  [plainMember numberName (.string (plainly "1")), plainMember "type" (.string (plainly "ObjectEvent"))]

/-- The name for numbers as the first name of an event is a name like any other in a document, and is refused in
    an array. -/
theorem not_hashJson_bareEvent_numberName :
    (Written.object .none reservedMembers).bytes.length ≤ defaultLimit ∧
    (Written.object .none reservedMembers).depth ≤ 126 ∧
    (Written.object .none reservedMembers).value.eventType?.any isEventType = true ∧
    (∀ member ∈ reservedMembers, member.1.inner.text ∉ "eventList" :: bodyContainers) ∧
    ¬ ∃ result, hashJson Settings.standard
        (Source.whole (bareBytes .none (.object .none reservedMembers) .none)) defaultLimit = [result] ∧
      hashJson Settings.standard
        (Source.whole (arrayBytes .none (.object .none reservedMembers) .none)) defaultLimit = [result] := by
  have differ : (hashJson Settings.standard
        (Source.whole (bareBytes .none (.object .none reservedMembers) .none)) defaultLimit).map Except.isOk ≠
      (hashJson Settings.standard
        (Source.whole (arrayBytes .none (.object .none reservedMembers) .none)) defaultLimit).map Except.isOk := by
    decide +kernel
  refine ⟨by decide +kernel, by decide +kernel, by decide +kernel, by decide +kernel, ?_⟩
  rintro ⟨result, bare, array⟩
  rw [bare, array] at differ
  exact differ rfl

end EpcisDigest
