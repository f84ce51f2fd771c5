import EpcisDigest.Json.Input
import EpcisDigest.Vocabulary

namespace EpcisDigest.Json

inductive Item where
  | event (value : Value)
  | header (value : Value)

inductive Phase where
  | start
  | fields
  | events (first : Bool)
  | done
  deriving DecidableEq

structure Level where
  stored : Object
  first : Bool

/-- A document that is read event by event. `inner` are the containers that have been entered, the
    innermost first, with the names they have in the objects around them; `size` is the number of
    bytes of the source. -/
structure Feed where
  input : Input
  size : Nat
  limit : Nat
  phase : Phase
  header : Level
  inner : List (String × Level)
  sawEventList : Bool
  bareArray : Bool

def defaultLimit : Nat := 16 * 1024 * 1024

def bodyContainers : List String := ["epcisBody", "queryResults", "resultsBody"]

def documentMarkers : List String := ["@context", "type", "schemaVersion", "creationDate"]

namespace Feed

def ofSource (source : Source) (limit : Nat) : Feed where
  input := Input.ofSource source
  size := source.bytes.length
  limit := limit
  phase := .start
  header := ⟨[], true⟩
  inner := []
  sawEventList := false
  bareArray := false

def isComplete (feed : Feed) : Bool := feed.phase = .done

def cancel (feed : Feed) : Feed := { feed with phase := .done }

def level (feed : Feed) : Level :=
  match feed.inner with
  | [] => feed.header
  | (_, level) :: _ => level

def setLevel (feed : Feed) (level : Level) : Feed :=
  match feed.inner with
  | [] => { feed with header := level }
  | (name, _) :: outer => { feed with inner := (name, level) :: outer }

def store (name : String) (value : Value) (feed : Feed) : Feed :=
  feed.setLevel { feed.level with stored := Entries.put name value feed.level.stored }

end Feed

abbrev Feeding := EStateM ReadError Feed

namespace Feeding

def reading {α : Type} (action : Reading α) : Feeding α := fun feed =>
  match action feed.input with
  | .ok a input => .ok a { feed with input }
  | .error e input => .error e { feed with input }

def setPhase (phase : Phase) : Feeding Unit :=
  modify fun feed => { feed with phase }

def start : Feeding Unit := do
  match ← reading Reading.peekSignificant with
  | none => reading (Reading.refuse .emptyDocument)
  | some b =>
    if b = 0x7B then
      reading (Reading.expect 0x7B)
      setPhase .fields
    else if b = 0x5B then
      reading (Reading.expect 0x5B)
      modify fun feed => { feed with bareArray := true, sawEventList := true, phase := .events true }
    else throw (.notContainer (← get).input.offset)

def heldValue : Feeding Value := do
  let bytes ← reading (Reading.capture (← get).limit)
  match parse? bytes with
  | some value => pure value
  | none => throw .invalidValue

/-- At the end of the document nothing else may follow. An object without an event list may be an
    event itself. -/
def finish : Feeding (Option Item) := do
  if (← reading Reading.peekSignificant).isSome then reading (Reading.refuse .trailing)
  setPhase .done
  let feed ← get
  let header := Value.object feed.header.stored
  if feed.bareArray then pure none
  else if !feed.sawEventList && header.eventType?.any isEventType then pure (some (.event header))
  else if documentMarkers.all fun name => (header.member? name).isSome then
    pure (some (.header header))
  else pure none

def leave : Feeding (Option Item) := do
  let feed ← get
  match feed.inner with
  | [] => finish
  | (name, level) :: outer =>
    set (Feed.store name (.object level.stored) { feed with inner := outer })
    pure none

def separate : Feeding Unit := do
  let feed ← get
  let level := feed.level
  set (feed.setLevel { level with first := false })
  if !level.first then reading (Reading.expect 0x2C)

def enterEvents (name : String) : Feeding Bool := do
  if name = "eventList" then reading (Reading.takeIf 0x5B) else pure false

def enterContainer (name : String) : Feeding Bool := do
  if bodyContainers.contains name then reading (Reading.takeIf 0x7B) else pure false

def field : Feeding (Option Item) := do
  if ← reading (Reading.takeIf 0x7D) then leave
  else
    separate
    let name ← reading Reading.readString
    reading (Reading.expect 0x3A)
    if ← enterEvents name then
      modify fun feed => { feed with sawEventList := true, phase := .events true }
      pure none
    else if ← enterContainer name then
      modify fun feed => { feed with inner := (name, ⟨[], true⟩) :: feed.inner }
      pure none
    else
      let value ← heldValue
      modify (Feed.store name value)
      pure none

def entry (first : Bool) : Feeding (Option Item) := do
  if ← reading (Reading.takeIf 0x5D) then
    if (← get).bareArray then finish
    else
      setPhase .fields
      pure none
  else
    if !first then reading (Reading.expect 0x2C)
    setPhase (.events false)
    let value ← heldValue
    pure (value.eventType?.map fun _ => .event value)

def turn : Feeding (Option Item) := do
  match (← get).phase with
  | .done => pure none
  | .start => do
    start
    pure none
  | .fields => field
  | .events first => entry first

def pullWithin : Nat → Feeding (Option Item)
  | 0 => pure none
  | turns + 1 => do
    if (← get).isComplete then pure none
    else match ← turn with
      | some item => pure (some item)
      | none => pullWithin turns

end Feeding

structure Batch where
  items : List Item
  complete : Bool

namespace Feed

def next (feed : Feed) : Except ReadError (Option Item) × Feed :=
  match Feeding.pullWithin (feed.size + 2) feed with
  | .ok item feed => (.ok item, feed)
  | .error e feed => (.error e, feed.cancel)

def take : Nat → Feed → Except ReadError (List Item) × Feed
  | 0, feed => (.ok [], feed)
  | count + 1, feed =>
    match feed.next with
    | (.error e, feed) => (.error e, feed)
    | (.ok none, feed) => (.ok [], feed)
    | (.ok (some item), feed) =>
      match take count feed with
      | (.error e, feed) => (.error e, feed)
      | (.ok items, feed) => (.ok (item :: items), feed)

def request (feed : Feed) (demand : Int) : Except ReadError Batch × Feed :=
  if demand < 0 then (.error (.negativeDemand demand), feed)
  else
    match take demand.toNat feed with
    | (.error e, feed) => (.error e, feed)
    | (.ok items, feed) => (.ok ⟨items, feed.isComplete⟩, feed)

end Feed

end EpcisDigest.Json
