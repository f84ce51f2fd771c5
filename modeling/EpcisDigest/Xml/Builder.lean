import EpcisDigest.Event.Tree
import EpcisDigest.Xml.Step

namespace EpcisDigest.Xml

def standardNamespaces : List String :=
  ["urn:epcglobal:epcis:xsd:1",
   "urn:epcglobal:epcis:xsd:2",
   "urn:epcglobal:epcis-query:xsd:1",
   "urn:epcglobal:epcis-query:xsd:2",
   "https://ref.gs1.org/standards/epcis",
   "http://www.unece.org/cefact/namespaces/StandardBusinessDocumentHeader"]

def schemaInstance : String := "http://www.w3.org/2001/XMLSchema-instance"

def withoutFinalSlashes (uri : String) : String :=
  String.ofList (uri.toList.reverse.dropWhile (· == '/')).reverse

def boundUri? (namespaces : Namespaces) (name : String) : Option String :=
  (Text.cut? ':' name).bind fun parts => namespaces.get? parts.1

def strippedName (namespaces : Namespaces) (name : String) : String :=
  match Text.cut? ':' name with
  | none => name
  | some (lead, localName) =>
    match namespaces.get? lead with
    | none => name
    | some uri => if standardNamespaces.contains (withoutFinalSlashes uri) then localName else name

def isSchemaInstance (namespaces : Namespaces) (name : String) : Bool :=
  boundUri? namespaces name == some schemaInstance

inductive Opening where
  | event
  | node (name : String)
  | transparent
  | value (name : String)
  | entry (name : String)
  deriving DecidableEq

/-- An open element of an event. `added` are the fields that it has so far, the last one first; they go
    to a field that is called `host`, or to one without a name when this is empty. -/
structure Frame where
  opening : Opening
  host : String
  text : String
  added : List Field

namespace Frame

def fields (frame : Frame) : List Field := frame.added.reverse

def add (frame : Frame) (fields : List Field) : Frame :=
  { frame with added := fields.reverse ++ frame.added }

end Frame

/-- A document that is turned into event trees. `frames` are the open elements of the current event,
    the innermost first; `ignored` counts the open elements of an excluded one. -/
structure Builder where
  namespaces : Namespaces
  frames : List Frame
  depth : Nat
  ignored : Nat

namespace Builder

def empty : Builder := ⟨NameTable.empty, [], 0, 0⟩

def isOpen (builder : Builder) : Bool :=
  builder.depth != 0 || !builder.frames.isEmpty

def declare (namespaces : Namespaces) (attributes : List (String × String)) : Namespaces :=
  attributes.foldl
    (fun namespaces declared =>
      match Text.after? "xmlns:" declared.1 with
      | some lead => namespaces.insert lead declared.2
      | none => namespaces)
    namespaces

def isDeclaration (name : String) : Bool :=
  name == "xmlns" || Text.startsWith "xmlns:" name

def attributeFields (settings : Settings) (namespaces : Namespaces)
    (attributes : List (String × String)) : List Field :=
  attributes.filterMap fun declared =>
    let name := strippedName namespaces declared.1
    if isDeclaration declared.1 || isSchemaInstance namespaces declared.1 || settings.isExcluded name
    then none
    else some (Field.leaf name declared.2)

def frameIn (settings : Settings) (namespaces : Namespaces) (host name : String)
    (attributes : List (String × String)) : Frame :=
  let fields := attributeFields settings namespaces attributes
  if isSynthetic name then ⟨.transparent, host, "", []⟩
  else if isValueList host then ⟨.value name, host, "", []⟩
  else if unnamedEntryLists.contains host then Frame.add ⟨.entry name, "", "", []⟩ fields
  else Frame.add ⟨.node name, name, "", []⟩ fields

def openElement (settings : Settings) (builder : Builder) (name : String)
    (attributes : List (String × String)) : Builder :=
  let builder := { builder with namespaces := declare builder.namespaces attributes }
  if builder.ignored ≠ 0 then { builder with ignored := builder.ignored + 1 }
  else
    let name := strippedName builder.namespaces name
    match builder.frames with
    | [] =>
      if isEventType name
      then { builder with frames := [⟨.event, "", "", [Field.leaf "type" name]⟩] }
      else builder
    | frame :: _ =>
      if settings.isExcluded name then { builder with ignored := 1 }
      else
        let opened := frameIn settings builder.namespaces frame.host name attributes
        { builder with frames := opened :: builder.frames }

def closedFields (frame : Frame) : List Field :=
  let text := Text.trim frame.text
  match frame.opening with
  | .event => []
  | .transparent => frame.fields
  | .value name => frame.fields ++ [Field.leaf name text]
  | .entry name => [Field.wrapper (frame.fields ++ [Field.leaf name text])]
  | .node name =>
    if text = "" then [Field.node name frame.fields]
    else if frame.fields.isEmpty then [Field.leaf name text]
    else [Field.node name (frame.fields ++ [Field.leaf name text])]

def closeElement (builder : Builder) : Option EventTree × Builder :=
  if builder.ignored ≠ 0 then (none, { builder with ignored := builder.ignored - 1 })
  else
    match builder.frames with
    | [] => (none, builder)
    | [frame] => (some (EventTree.ofFields builder.namespaces frame.fields), { builder with frames := [] })
    | frame :: outer :: frames =>
      (none, { builder with frames := outer.add (closedFields frame) :: frames })

def addText (builder : Builder) (text : String) : Except Refusal Builder :=
  if builder.depth = 0 then
    if Text.trim text = "" then .ok builder else .error .textOutside
  else
    match builder.frames, builder.ignored with
    | frame :: frames, 0 =>
      .ok { builder with frames := { frame with text := frame.text ++ text } :: frames }
    | _, _ => .ok builder

def deeper (builder : Builder) : Builder := { builder with depth := builder.depth + 1 }

def shallower (builder : Builder) : Builder := { builder with depth := builder.depth - 1 }

def step (settings : Settings) (builder : Builder) : Step → Except Refusal (Option EventTree × Builder)
  | .opening name attributes isEmpty =>
    let opened := builder.deeper.openElement settings name attributes
    .ok (if isEmpty then opened.shallower.closeElement else (none, opened))
  | .closing => .ok builder.shallower.closeElement
  | .text text => (builder.addText text).map fun builder => (none, builder)

def run (settings : Settings) (builder : Builder) :
    List Step → List EventTree × Option Refusal × Builder
  | [] => ([], none, builder)
  | step :: steps =>
    match builder.step settings step with
    | .error refusal => ([], some refusal, builder)
    | .ok (tree, builder) =>
      let (trees, outcome) := run settings builder steps
      (tree.toList ++ trees, outcome)

end Builder

/-- The trees of the events of a document in the order in which these close, then the error that ended
    the reading, if one did; and the namespaces that were declared. -/
def eventTrees (settings : Settings) (source : Source) :
    List (Except ReadError EventTree) × Namespaces :=
  let (steps, failure) := steps source
  let (trees, refusal, builder) := Builder.empty.run settings steps
  let ending : Option ReadError :=
    match refusal, failure with
    | some refusal, _ => some (.refused refusal)
    | none, some failure => some failure
    | none, none => if builder.isOpen then some (.refused .unclosed) else none
  (trees.map Except.ok ++ (ending.map Except.error).toList, builder.namespaces)

end EpcisDigest.Xml
