import EpcisDigest.Proofs.Json.Document

namespace EpcisDigest.Json

open Reading Input Feeding

/-- What members of an object come to: the items of their event lists, what is stored under which name,
    in order, and whether an event list is among them. -/
structure Collected where
  items : List Item
  stored : List (String × Value)
  hasEventList : Bool

namespace Collected

def none : Collected := ⟨[], [], false⟩

def held (name : String) (written : Written) : Collected := ⟨[], [(name, written.value)], false⟩

def events (items : WrittenItems) : Collected :=
  ⟨items.filterMap fun item => yielded item.inner, [], true⟩

def object (collected : Collected) : Value := .object (Entries.ofList collected.stored)

def within (name : String) (inside : Collected) : Collected :=
  ⟨inside.items, [(name, inside.object)], inside.hasEventList⟩

def append (first second : Collected) : Collected :=
  ⟨first.items ++ second.items, first.stored ++ second.stored, first.hasEventList || second.hasEventList⟩

end Collected

mutual

def memberCollected (name : String) : Written → Collected
  | .array blank items =>
    if name = "eventList" then .events items else .held name (.array blank items)
  | .object blank members =>
    if bodyContainers.contains name then .within name (membersCollected members)
    else .held name (.object blank members)
  | .null => .held name .null
  | .bool value => .held name (.bool value)
  | .number number => .held name (.number number)
  | .string string => .held name (.string string)

def membersCollected : WrittenMembers → Collected
  | [] => .none
  | (name, ⟨_, value, _⟩) :: members =>
    (memberCollected name.inner.text value).append (membersCollected members)

end

mutual

def memberHeld (name : String) : Written → List Written
  | .array blank items => if name = "eventList" then items.map Padded.inner else [.array blank items]
  | .object blank members =>
    if bodyContainers.contains name then membersHeld members else [.object blank members]
  | .null => [.null]
  | .bool value => [.bool value]
  | .number number => [.number number]
  | .string string => [.string string]

def membersHeld : WrittenMembers → List Written
  | [] => []
  | (name, ⟨_, value, _⟩) :: members => memberHeld name.inner.text value ++ membersHeld members

end

namespace Collected

def last (collected : Collected) : Option Item :=
  if !collected.hasEventList && collected.object.eventType?.any isEventType then
    some (.event collected.object)
  else if documentMarkers.all fun name => (collected.object.member? name).isSome then
    some (.header collected.object)
  else Option.none

end Collected

namespace Document

def items (document : Document) : List Item :=
  match document.root with
  | .array _ items => (Collected.events items).items
  | .object _ members => (membersCollected members).items ++ (membersCollected members).last.toList
  | _ => []

def held (document : Document) : List Written :=
  match document.root with
  | .array _ items => items.map Padded.inner
  | .object _ members => membersHeld members
  | _ => []

end Document

/-- A value can be held: it is within the limit, not nested too deep, and the name for numbers is used
    for numbers only. -/
structure Holdable (limit : Nat) (written : Written) : Prop where
  fits : written.bytes.length ≤ limit
  deep : written.depth ≤ maxDepth
  readable : written.Readable

namespace Feed

def after (collected : Collected) (first : Bool) (feed : Feed) : Feed :=
  { feed.setLevel ⟨collected.stored.foldl (fun stored binding => Entries.put binding.1 binding.2 stored)
      feed.level.stored, first⟩ with
    sawEventList := feed.sawEventList || collected.hasEventList }

theorem after_none (feed : Feed) : feed.after .none feed.level.first = feed := by
  obtain ⟨input, size, limit, phase, header, inner, saw, bare⟩ := feed
  cases inner <;> simp only [after, Collected.none, List.foldl_nil, Bool.or_false] <;> rfl

theorem after_after (feed : Feed) (collected more : Collected) (first first' : Bool) :
    (feed.after collected first).after more first' = feed.after (collected.append more) first' := by
  obtain ⟨input, size, limit, phase, header, inner, saw, bare⟩ := feed
  cases inner <;> simp only [after, Collected.append, setLevel, level, List.foldl_append, Bool.or_assoc]

theorem after_level (feed : Feed) (collected : Collected) (first : Bool) :
    (feed.after collected first).level.first = first := by
  obtain ⟨input, size, limit, phase, header, inner, saw, bare⟩ := feed
  cases inner <;> rfl

theorem after_held (feed : Feed) (name : String) (written : Written) :
    feed.after (.held name written) false = feed.begun.store name written.value := by
  obtain ⟨input, size, limit, phase, header, inner, saw, bare⟩ := feed
  cases inner <;> simp only [after, Collected.held, List.foldl_cons, List.foldl_nil, Bool.or_false] <;> rfl

theorem after_events (feed : Feed) (items : WrittenItems) :
    feed.after (.events items) false = { feed.begun with sawEventList := true } := by
  obtain ⟨input, size, limit, phase, header, inner, saw, bare⟩ := feed
  cases inner <;> simp only [after, Collected.events, List.foldl_nil, Bool.or_true] <;> rfl

def entered (name : String) (feed : Feed) : Feed :=
  { feed.begun with inner := (name, ⟨[], true⟩) :: feed.begun.inner }

theorem entered_after_inner (feed : Feed) (name : String) (collected : Collected) (first : Bool) :
    ((feed.entered name).after collected first).inner =
      (name, ⟨Entries.ofList collected.stored, first⟩) :: feed.begun.inner := rfl

theorem after_within (feed : Feed) (name : String) (collected : Collected) (first : Bool) :
    store name collected.object { (feed.entered name).after collected first with inner := feed.begun.inner } =
      feed.after (.within name collected) false := by
  obtain ⟨input, size, limit, phase, header, inner, saw, bare⟩ := feed
  cases inner <;> rfl

end Feed

theorem Walks.step {feed feed' : Feed} {items : List Item} (isOpen : feed.phase.IsOpen) {item : Option Item}
    (turn : Feeding.turn feed = .ok item feed') (walks : Walks feed' items) :
    Walks feed (item.toList ++ items) := by
  refine .turn ?_ turn walks
  rcases isOpen with phase | ⟨first, phase⟩ <;> (rw [phase]; exact fun h => by cases h)

theorem Walks.field {feed feed' : Feed} {items : List Item} (phase : feed.phase = .fields)
    (step : field feed = .ok none feed') (walks : Walks feed' items) : Walks feed items :=
  Walks.step (.inl phase) ((turn_fields phase).trans step) walks

theorem Walks.entry {feed feed' : Feed} {items : List Item} {first : Bool} {item : Option Item}
    (phase : feed.phase = .events first) (step : entry first feed = .ok item feed') (walks : Walks feed' items) :
    Walks feed (item.toList ++ items) :=
  Walks.step (.inr ⟨first, phase⟩) ((turn_events phase).trans step) walks

theorem Delimited.exists_stop {bytes : List UInt8} (delimited : Delimited bytes) (present : bytes ≠ []) :
    ∃ stop rest, bytes = stop :: rest ∧ endsLiteral stop = true := by
  obtain ⟨stop, rest, rfl⟩ := List.exists_cons_of_ne_nil present
  exact ⟨stop, rest, rfl, delimited stop rfl⟩

theorem walks_items {limit : Nat} {tail : List UInt8} {others : List Item} (items : WrittenItems)
    (each : ∀ written ∈ items.map Padded.inner, Holdable limit written) (feed : Feed)
    (limited : feed.limit = limit) {first : Bool} (phase : feed.phase = .events first)
    (ends : ∀ (first : Bool) (blank : Blanks) (offset : Nat),
      Walks (Feed.facing { feed with phase := .events first } (blank.val ++ 0x5D :: tail) offset) others)
    (blank : Blanks) (offset : Nat) :
    Walks (feed.facing (blank.val ++ (itemsBytes first items ++ 0x5D :: tail)) offset)
      ((Collected.events items).items ++ others) := by
  induction items generalizing feed first blank offset with
  | nil =>
    have walks := ends first blank offset
    rw [← phase] at walks
    exact walks
  | cons item items ih =>
    obtain ⟨before, written, after⟩ := item
    obtain ⟨fits, deep, readable⟩ := each written List.mem_cons_self
    rw [← limited] at fits
    obtain ⟨stop, rest, behind, delimits⟩ := (delimited_blanks after (delimited_items items tail)).exists_stop
      (by simp)
    obtain ⟨offset', found⟩ := entry_element feed first blank before written delimits fits deep readable rest offset
    have walks := ih (fun written member => each written (List.mem_cons_of_mem _ member))
      { feed with phase := .events false } limited rfl ends after offset'
    have text : blank.val ++ (itemsBytes first (⟨before, written, after⟩ :: items) ++ 0x5D :: tail) =
        blank.val ++ (separator first ++ (before.val ++ (written.bytes ++ stop :: rest))) := by
      rw [← behind]
      simp only [itemsBytes, List.append_assoc]
    have yields : (Collected.events (⟨before, written, after⟩ :: items)).items ++ others =
        (yielded written).toList ++ ((Collected.events items).items ++ others) := by
      simp only [Collected.events, List.filterMap_cons]
      cases yielded written <;> rfl
    rw [behind] at walks
    rw [text, yields]
    exact Walks.entry phase found walks

theorem stop_member (after : Blanks) (members : WrittenMembers) (tail : List UInt8) :
    ∃ stop rest, after.val ++ (membersBytes false members ++ 0x7D :: tail) = stop :: rest ∧
      endsLiteral stop = true :=
  (delimited_blanks after (delimited_members members tail)).exists_stop (by simp)

structure Feed.InObject (limit : Nat) (feed : Feed) : Prop where
  limited : feed.limit = limit
  phase : feed.phase = .fields
  listed : feed.bareArray = false

namespace Feed.InObject

variable {limit : Nat} {feed : Feed}

theorem begun (inObject : feed.InObject limit) : feed.begun.InObject limit :=
  ⟨(setLevel_limit _ _).trans inObject.limited, (setLevel_phase _ _).trans inObject.phase,
    (setLevel_bareArray _ _).trans inObject.listed⟩

theorem after (inObject : feed.InObject limit) (collected : Collected) (first : Bool) :
    (feed.after collected first).InObject limit :=
  ⟨(setLevel_limit _ _).trans inObject.limited, (setLevel_phase _ _).trans inObject.phase,
    (setLevel_bareArray _ _).trans inObject.listed⟩

theorem entered (inObject : feed.InObject limit) (name : String) : (feed.entered name).InObject limit :=
  ⟨inObject.begun.limited, inObject.begun.phase, inObject.begun.listed⟩

end Feed.InObject

def WalksMember (limit : Nat) (name : Padded WrittenString) (written : Written) : Prop :=
  ∀ (before : Blanks) (feed : Feed), feed.InObject limit →
    ∀ (stop : UInt8) (rest : List UInt8) (others : List Item), endsLiteral stop = true →
    (∀ offset : Nat, Walks ((feed.after (memberCollected name.inner.text written) false).facing (stop :: rest)
      offset) others) →
    ∀ (blank : Blanks) (offset : Nat),
      Walks (feed.facing (blank.val ++ (separator feed.level.first ++ (nameBytes name ++ (before.val ++
        (written.bytes ++ stop :: rest))))) offset)
        ((memberCollected name.inner.text written).items ++ others)

def WalksMembers (limit : Nat) (members : WrittenMembers) : Prop :=
  ∀ feed : Feed, feed.InObject limit → ∀ (tail : List UInt8) (others : List Item),
    (∀ (first : Bool) (blank : Blanks) (offset : Nat),
      Walks ((feed.after (membersCollected members) first).facing (blank.val ++ 0x7D :: tail) offset) others) →
    ∀ (blank : Blanks) (offset : Nat),
      Walks (feed.facing (blank.val ++ (membersBytes feed.level.first members ++ 0x7D :: tail)) offset)
        ((membersCollected members).items ++ others)

section Member

variable {limit : Nat} {name : Padded WrittenString}

theorem walksMember_held {written : Written}
    (collected : memberCollected name.inner.text written = .held name.inner.text written)
    (holdable : Holdable limit written)
    (noEvents : name.inner.text = "eventList" → ¬ written.Leads 0x5B)
    (noContainer : bodyContainers.contains name.inner.text = true → ¬ written.Leads 0x7B) :
    WalksMember limit name written := by
  intro before feed inObject stop rest others delimits ends blank offset
  rw [collected] at ends ⊢
  obtain ⟨fits, deep, readable⟩ := holdable
  have fits : written.bytes.length ≤ feed.begun.limit := by
    rw [inObject.begun.limited]
    exact fits
  obtain ⟨between, named⟩ := field_member feed blank name (before.val ++ (written.bytes ++ stop :: rest)) offset
  obtain ⟨offset', valued⟩ := fieldValue_held feed.begun name.inner.text before written noEvents noContainer
    delimits fits deep readable rest between
  have walks := ends offset'
  rw [Feed.after_held] at walks
  exact Walks.field inObject.phase (named.trans valued) walks

theorem walksMember_events (isList : name.inner.text = "eventList") (inside : Blanks) {items : WrittenItems}
    (each : ∀ written ∈ items.map Padded.inner, Holdable limit written) :
    WalksMember limit name (.array inside items) := by
  intro before feed inObject stop rest others delimits ends blank offset
  have collected : memberCollected name.inner.text (.array inside items) = .events items := by
    rw [memberCollected, if_pos isList]
  rw [collected] at ends ⊢
  have text : before.val ++ ((Written.array inside items).bytes ++ stop :: rest) =
      before.val ++ 0x5B :: (inside.val ++ (itemsBytes true items ++ 0x5D :: stop :: rest)) := by
    simp only [Written.bytes, List.cons_append, List.append_assoc, List.nil_append]
  obtain ⟨between, named⟩ := field_member feed blank name
    (before.val ++ 0x5B :: (inside.val ++ (itemsBytes true items ++ 0x5D :: stop :: rest))) offset
  obtain ⟨offset', valued⟩ := fieldValue_events feed.begun before
    (inside.val ++ (itemsBytes true items ++ 0x5D :: stop :: rest)) between
  rw [isList] at named
  have closes : ∀ (first : Bool) (blank : Blanks) (offset : Nat),
      Walks (Feed.facing { feed.begun with sawEventList := true, phase := .events first }
        (blank.val ++ 0x5D :: stop :: rest) offset) others := by
    intro first blank offset
    obtain ⟨offset', closed⟩ := entry_listEnd
      { feed.begun with sawEventList := true, phase := .events first } inObject.begun.listed first blank
      (stop :: rest) offset
    have walks := ends offset'
    rw [Feed.after_events] at walks
    have phase := inObject.begun.phase
    have same : { Feed.facing { feed.begun with sawEventList := true, phase := .events first } (stop :: rest)
        offset' with phase := .fields } =
        Feed.facing { feed.begun with sawEventList := true } (stop :: rest) offset' := by
      rw [← phase]
      rfl
    rw [same] at closed
    exact Walks.entry rfl closed walks
  have walks := walks_items items each { feed.begun with sawEventList := true, phase := .events true }
    inObject.begun.limited rfl closes inside offset'
  rw [text]
  exact Walks.field inObject.phase (named.trans valued) walks

theorem walksMember_container (isBody : bodyContainers.contains name.inner.text = true) (inside : Blanks)
    {members : WrittenMembers} (walksMembers : WalksMembers limit members) :
    WalksMember limit name (.object inside members) := by
  intro before feed inObject stop rest others delimits ends blank offset
  have collected : memberCollected name.inner.text (.object inside members) =
      .within name.inner.text (membersCollected members) := by
    rw [memberCollected, if_pos isBody]
  rw [collected] at ends ⊢
  have text : before.val ++ ((Written.object inside members).bytes ++ stop :: rest) =
      before.val ++ 0x7B :: (inside.val ++ (membersBytes true members ++ 0x7D :: stop :: rest)) := by
    simp only [Written.bytes, List.cons_append, List.append_assoc, List.nil_append]
  obtain ⟨between, named⟩ := field_member feed blank name
    (before.val ++ 0x7B :: (inside.val ++ (membersBytes true members ++ 0x7D :: stop :: rest))) offset
  obtain ⟨offset', valued⟩ := fieldValue_container feed.begun isBody before
    (inside.val ++ (membersBytes true members ++ 0x7D :: stop :: rest)) between
  have closes : ∀ (first : Bool) (blank : Blanks) (offset : Nat),
      Walks (((feed.entered name.inner.text).after (membersCollected members) first).facing
        (blank.val ++ 0x7D :: stop :: rest) offset) others := by
    intro first blank offset
    obtain ⟨offset', closed⟩ := field_close
      ((feed.entered name.inner.text).after (membersCollected members) first) blank (stop :: rest) offset
    rw [leave_close (Feed.entered_after_inner _ _ _ _)] at closed
    have walks := ends offset'
    rw [← Feed.after_within feed name.inner.text (membersCollected members) first] at walks
    have inside := (inObject.entered name.inner.text).after (membersCollected members) first
    exact Walks.field inside.phase closed walks
  have walks := walksMembers (feed.entered name.inner.text) (inObject.entered _) (stop :: rest) others closes inside
    offset'
  rw [text]
  exact Walks.field inObject.phase (named.trans valued) walks

end Member

mutual

theorem walks_member {limit : Nat} (name : Padded WrittenString) :
    ∀ written : Written, (∀ held ∈ memberHeld name.inner.text written, Holdable limit held) →
      WalksMember limit name written
  | .null, each => walksMember_held rfl (each _ List.mem_cons_self) (fun _ h => by cases h) (fun _ h => by cases h)
  | .bool true, each =>
    walksMember_held rfl (each _ List.mem_cons_self) (fun _ h => by cases h) (fun _ h => by cases h)
  | .bool false, each =>
    walksMember_held rfl (each _ List.mem_cons_self) (fun _ h => by cases h) (fun _ h => by cases h)
  | .number number, each =>
    walksMember_held rfl (each _ List.mem_cons_self) (fun _ h => by rcases h with h | h <;> exact absurd h (by decide))
      (fun _ h => by rcases h with h | h <;> exact absurd h (by decide))
  | .string string, each =>
    walksMember_held rfl (each _ List.mem_cons_self) (fun _ h => by cases h) (fun _ h => by cases h)
  | .array inside items, each => by
    by_cases isList : name.inner.text = "eventList"
    · rw [memberHeld, if_pos isList] at each
      exact walksMember_events isList inside each
    · rw [memberHeld, if_neg isList] at each
      refine walksMember_held ?_ (each _ List.mem_cons_self) (fun tried => absurd tried isList) (fun _ h => by cases h)
      rw [memberCollected, if_neg isList]
  | .object inside members, each => by
    by_cases isBody : bodyContainers.contains name.inner.text = true
    · rw [memberHeld, if_pos isBody] at each
      exact walksMember_container isBody inside (walks_members members each)
    · rw [memberHeld, if_neg isBody] at each
      refine walksMember_held ?_ (each _ List.mem_cons_self) (fun _ h => by cases h) (fun tried => absurd tried isBody)
      rw [memberCollected, if_neg isBody]

theorem walks_members {limit : Nat} :
    ∀ members : WrittenMembers, (∀ held ∈ membersHeld members, Holdable limit held) → WalksMembers limit members
  | [], _ => by
    intro feed inObject tail others ends blank offset
    have walks := ends feed.level.first blank offset
    rw [membersCollected, Feed.after_none] at walks
    exact walks
  | (name, ⟨before, written, after⟩) :: members, each => by
    intro feed inObject tail others ends blank offset
    obtain ⟨stop, rest, behind, delimits⟩ := stop_member after members tail
    have first := walks_member name written
      (fun held member => each held (by rw [membersHeld]; exact List.mem_append_left _ member))
    have more := walks_members members
      (fun held member => each held (by rw [membersHeld]; exact List.mem_append_right _ member))
    have continued : ∀ offset, Walks ((feed.after (memberCollected name.inner.text written) false).facing
        (stop :: rest) offset) ((membersCollected members).items ++ others) := by
      intro offset
      have walks := more _ (inObject.after (memberCollected name.inner.text written) false) tail others
        (fun first blank offset => by rw [Feed.after_after]; exact ends first blank offset) after offset
      rw [Feed.after_level, behind] at walks
      exact walks
    have walks := first before feed inObject stop rest _ delimits continued blank offset
    rw [← behind, ← List.append_assoc] at walks
    simpa only [membersBytes, membersCollected, Collected.append, List.append_assoc] using walks

end

theorem Walks.finished {feed other : Feed} {blank : Blanks} {offset : Nat} (isOpen : feed.phase.IsOpen)
    (turns : Feeding.turn feed = finish (other.facing blank.val offset)) :
    Walks feed (other.closing.toList ++ []) := by
  obtain ⟨offset', finished⟩ := finish_found other blank offset
  exact Walks.step isOpen (turns.trans finished) (.done rfl)

theorem walks_array {limit : Nat} (inside : Blanks) (items : WrittenItems) (after : Blanks)
    (each : ∀ written ∈ items.map Padded.inner, Holdable limit written) (feed : Feed) (limited : feed.limit = limit)
    (phase : feed.phase = .events true) (bare : feed.bareArray = true) (offset : Nat) :
    Walks (feed.facing (inside.val ++ (itemsBytes true items ++ 0x5D :: after.val)) offset)
      ((Collected.events items).items ++ []) := by
  apply walks_items items each feed limited phase
  intro first blank offset
  obtain ⟨offset', closed⟩ := entry_close { feed with phase := .events first } first blank after.val offset
  rw [if_pos (show Feed.bareArray { feed with phase := .events first } = true from bare)] at closed
  have ends : Walks (Feed.facing { feed with phase := .events first } (blank.val ++ 0x5D :: after.val) offset)
      ((Feed.closing { feed with phase := .events first }).toList ++ []) :=
    Walks.finished (.inr ⟨first, rfl⟩) ((turn_events rfl).trans closed)
  rw [Feed.closing, if_pos bare] at ends
  exact ends

theorem walks_object {limit : Nat} (inside : Blanks) (members : WrittenMembers) (after : Blanks)
    (each : ∀ held ∈ membersHeld members, Holdable limit held) (feed : Feed) (inObject : feed.InObject limit)
    (outermost : feed.inner = []) (fresh : feed.header = ⟨[], true⟩) (noEvents : feed.sawEventList = false)
    (offset : Nat) :
    Walks (feed.facing (inside.val ++ (membersBytes true members ++ 0x7D :: after.val)) offset)
      ((membersCollected members).items ++ ((membersCollected members).last.toList ++ [])) := by
  have first : feed.level.first = true := by rw [Feed.level, outermost, fresh]
  have walks := walks_members members each feed inObject after.val
    ((membersCollected members).last.toList ++ []) ?_ inside offset
  · rwa [first] at walks
  intro first blank offset
  obtain ⟨offset', closed⟩ := field_close (feed.after (membersCollected members) first) blank after.val offset
  have outermost' : (feed.after (membersCollected members) first).inner = [] := by
    rw [Feed.after, Feed.setLevel, outermost]
  have closing : (feed.after (membersCollected members) first).closing = (membersCollected members).last := by
    obtain ⟨input, size, limit, phase, header, inner, saw, bare⟩ := feed
    have listed : bare = false := inObject.listed
    dsimp only at outermost fresh noEvents
    subst outermost fresh noEvents listed
    rfl
  have phase : ((feed.after (membersCollected members) first).facing (blank.val ++ 0x7D :: after.val) offset).phase =
      .fields := (inObject.after _ _).phase
  rw [leave_outermost outermost', ← turn_fields phase] at closed
  rw [← closing]
  exact Walks.finished (.inl phase) closed

/-- Every value that is held being within the limits, a document is read to its end, and the items are
    those that it holds. -/
theorem drains_document (document : Document) (limit : Nat) (each : ∀ held ∈ document.held, Holdable limit held) :
    Drains (Feed.ofSource (Source.whole document.bytes) limit) document.items := by
  apply drains_ofSource_iff.mpr
  let feed := Feed.ofSource (Source.whole document.bytes) limit
  obtain ⟨marked, before, root, bracketed, after⟩ := document
  cases root with
  | array inside items =>
    have text : Document.bytes ⟨marked, before, .array inside items, bracketed, after⟩ = markBytes marked ++
        (before.val ++ 0x5B :: (inside.val ++ (itemsBytes true items ++ 0x5D :: after.val))) := by
      simp only [Document.bytes, Written.bytes, List.cons_append, List.append_assoc, List.nil_append]
    obtain ⟨offset, started⟩ := start_found feed marked before (.inr rfl)
      (inside.val ++ (itemsBytes true items ++ 0x5D :: after.val))
    have walks := walks_array inside items after each (feed.opened 0x5B) rfl rfl rfl offset
    rw [List.append_nil] at walks
    rw [← text] at started
    exact ⟨_, started, walks⟩
  | object inside members =>
    have text : Document.bytes ⟨marked, before, .object inside members, bracketed, after⟩ = markBytes marked ++
        (before.val ++ 0x7B :: (inside.val ++ (membersBytes true members ++ 0x7D :: after.val))) := by
      simp only [Document.bytes, Written.bytes, List.cons_append, List.append_assoc, List.nil_append]
    obtain ⟨offset, started⟩ := start_found feed marked before (.inl rfl)
      (inside.val ++ (membersBytes true members ++ 0x7D :: after.val))
    have walks := walks_object inside members after each (feed.opened 0x7B) ⟨rfl, rfl, rfl⟩ rfl rfl rfl offset
    rw [List.append_nil] at walks
    rw [← text] at started
    exact ⟨_, started, walks⟩
  | null => exact absurd trivial bracketed
  | bool value => exact absurd trivial bracketed
  | number number => exact absurd trivial bracketed
  | string string => exact absurd trivial bracketed

def unescaped (text : String) (allowed : ∀ c ∈ text.toList, 0x20 ≤ c.toNat ∧ c ≠ '"' ∧ c ≠ '\\') :
    WrittenString :=
  text.toList.pmap WrittenChar.plain allowed

def isUnescaped (c : Char) : Bool := 0x20 ≤ c.toNat && c != '"' && c != '\\'

theorem allowed_of_all {text : String} (all : text.toList.all isUnescaped = true) :
    ∀ c ∈ text.toList, 0x20 ≤ c.toNat ∧ c ≠ '"' ∧ c ≠ '\\' := by
  intro c member
  have own := List.all_eq_true.mp all c member
  simp only [isUnescaped, Bool.and_eq_true, decide_eq_true_eq, bne_iff_ne] at own
  exact ⟨own.1.1, own.1.2, own.2⟩

def singleton (name : WrittenString) (value : Written) : Written :=
  .object .none [(⟨.none, name, .none⟩, ⟨.none, value, .none⟩)]

def typedEvent : Written :=
  singleton (unescaped "type" (allowed_of_all (by decide +kernel)))
    (.string (unescaped "ObjectEvent" (allowed_of_all (by decide +kernel))))

def listDocument : Document :=
  ⟨true, .none, singleton (unescaped "eventList" (allowed_of_all (by decide +kernel)))
    (.array .none [⟨.none, typedEvent, .none⟩]), id, .none⟩

theorem drains_listDocument :
    (∀ held ∈ listDocument.held, Holdable 22 held) ∧
      Drains (Feed.ofSource (Source.whole listDocument.bytes) 22) listDocument.items := by
  have readable : typedEvent.Readable :=
    ⟨fun named => absurd named (by decide +kernel), trivial, trivial⟩
  have holdable : ∀ held ∈ listDocument.held, Holdable 22 held := by
    have only : listDocument.held = [typedEvent] := rfl
    intro held member
    rw [only, List.mem_singleton] at member
    rw [member]
    exact ⟨by decide +kernel, by decide +kernel, readable⟩
  exact ⟨holdable, drains_document listDocument 22 holdable⟩

def numberNameDocument : Document :=
  ⟨false, .none, .array .none [⟨.none, singleton (unescaped numberName (allowed_of_all (by decide +kernel)))
    (.number ⟨false, ⟨[0x31], by decide +kernel⟩, fun _ => rfl, none, none⟩), .none⟩], id, .none⟩

/-- The name for numbers is refused where it is that of an ordinary member. -/
theorem not_drains_numberName :
    (∀ held ∈ numberNameDocument.held, held.bytes.length ≤ 100 ∧ held.depth ≤ maxDepth) ∧
      ∀ items, ¬ Drains (Feed.ofSource (Source.whole numberNameDocument.bytes) 100) items := by
  have refused : (match (Feed.ofSource (Source.whole numberNameDocument.bytes) 100).next.1 with
      | .ok _ => false
      | .error _ => true) = true := by decide +kernel
  constructor
  · decide +kernel
  · intro items drains
    cases drains with
    | done nothing =>
      rw [nothing] at refused
      cases refused
    | item pulled drains =>
      rw [pulled] at refused
      cases refused

end EpcisDigest.Json
