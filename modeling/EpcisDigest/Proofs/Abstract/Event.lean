import EpcisDigest.Json.EventFields
import EpcisDigest.Proofs.Xml.Content

namespace EpcisDigest.Abstract

open Json (Value)
open Xml (Content)

mutual

/-- A member of an event, whatever the format that it is written in. -/
inductive Member where
  | text (name text : String)
  | texts (name : String) (texts : List String)
  | object (name : String) (object : Object)
  | objects (name : String) (entries : List Object)
  | pairs (name : String) (entries : List (Option String × String))

inductive Object where
  | mk (attributes : List (String × String)) (members : List Member)

end

structure Event where
  type : String
  members : List Member

def entryName? (list : String) : Option String :=
  if identifierLists.contains list then some "epc"
  else if list = "correctiveEventIDs" then some "correctiveEventID"
  else if quantityLists.contains list then some "quantityElement"
  else if list = "sensorElementList" then some "sensorElement"
  else none

def pairName (list : String) : String :=
  if list = "bizTransactionList" then "bizTransaction"
  else if list = "sourceList" then "source"
  else "destination"

def isObjectList (name : String) : Bool :=
  quantityLists.contains name || name == "sensorElementList"

def Member.name : Member → String
  | text name _ => name
  | texts name _ => name
  | object name _ => name
  | objects name _ => name
  | pairs name _ => name

def typeMember (type : Option String) : List (String × String) :=
  type.toList.map fun type => ("type", type)

section Json

def textMember (member : String × String) : String × Value := (member.1, .string member.2)

def pairValue (entry : String) (pair : Option String × String) : Value :=
  .object ((typeMember pair.1 ++ [(entry, pair.2)]).map textMember)

mutual

def Member.value : Member → Value
  | .text _ text => .string text
  | .texts _ texts => .array (texts.map .string)
  | .object _ object => .object object.values
  | .objects _ entries => .array (objectValues entries)
  | .pairs name entries => .array (entries.map (pairValue (pairName name)))

def Object.values : Object → List (String × Value)
  | ⟨attributes, members⟩ => attributes.map textMember ++ memberValues members

def memberValues : List Member → List (String × Value)
  | [] => []
  | member :: members => (member.name, member.value) :: memberValues members

def objectValues : List Object → List Value
  | [] => []
  | object :: objects => .object object.values :: objectValues objects

end

def Event.value (event : Event) : Value :=
  .object (("type", .string event.type) :: memberValues event.members)

end Json

section Xml

def textContent (text : String) : List Content :=
  if text = "" then [] else [.text text]

def pairElement (entry : String) (pair : Option String × String) : Content :=
  .element entry (typeMember pair.1) (textContent pair.2)

/-- The elements of an array: in one of their own when they have a name of their own, or else all called
    as the array is. -/
def arrayContent (name : String) (entries : String → List Content) : List Content :=
  match entryName? name with
  | some entry => [.element name [] (entries entry)]
  | none => entries name

mutual

def Member.content : Member → List Content
  | .text name text => [.element name [] (textContent text)]
  | .texts name texts =>
    arrayContent name fun entry => texts.map fun text => .element entry [] (textContent text)
  | .object name object => [object.element name]
  | .objects name entries => arrayContent name fun entry => objectElements entry entries
  | .pairs name entries => [.element name [] (entries.map (pairElement (pairName name)))]

def Object.element (name : String) : Object → Content
  | ⟨attributes, members⟩ => .element name attributes (memberContent members)

def memberContent : List Member → List Content
  | [] => []
  | member :: members => member.content ++ memberContent members

def objectElements (name : String) : List Object → List Content
  | [] => []
  | object :: objects => object.element name :: objectElements name objects

end

def Event.element (event : Event) : Content :=
  .element event.type [] (memberContent event.members)

end Xml

section Conditions

variable (settings : Settings) (namespaces : Namespaces)

structure IsPlain (name : String) : Prop where
  notValueList : isValueList name = false
  notObjectList : isObjectList name = false
  notPairList : unnamedEntryLists.contains name = false
  notSynthetic : isSynthetic name = false
  notDeclaration : Xml.Builder.isDeclaration name = false
  notContext : name ≠ "@context"
  unbound : ∀ uri, Xml.boundUri? namespaces name = some uri →
    Xml.standardNamespaces.contains (Xml.withoutFinalSlashes uri) = false ∧ uri ≠ Xml.schemaInstance

def IsTrimmed (text : String) : Prop := Text.trim text = text

instance (text : String) : Decidable (IsTrimmed text) := inferInstanceAs (Decidable (_ = _))

mutual

def Member.WellFormed : Member → Prop
  | .text name text => IsPlain namespaces name ∧ IsTrimmed text
  | .texts name texts =>
    (IsPlain namespaces name ∨ isValueList name = true) ∧ ∀ text ∈ texts, IsTrimmed text
  | .object name object => IsPlain namespaces name ∧ object.WellFormed
  | .objects name entries =>
    (IsPlain namespaces name ∨ isObjectList name = true) ∧ AllObjectsWellFormed entries
  | .pairs name entries => unnamedEntryLists.contains name = true ∧ ∀ pair ∈ entries, IsTrimmed pair.2

def Object.WellFormed : Object → Prop
  | ⟨attributes, members⟩ =>
    (∀ written ∈ attributes, IsPlain namespaces written.1) ∧ AllMembersWellFormed members

def AllMembersWellFormed : List Member → Prop
  | [] => True
  | member :: members => member.WellFormed ∧ AllMembersWellFormed members

def AllObjectsWellFormed : List Object → Prop
  | [] => True
  | object :: objects => object.WellFormed ∧ AllObjectsWellFormed objects

end

def Event.WellFormed (event : Event) : Prop :=
  isEventType event.type = true ∧ AllMembersWellFormed namespaces event.members

mutual

/-- No pair loses its text and keeps its type. -/
def Member.KeepsPairs : Member → Prop
  | .pairs name entries =>
    entries = [] ∨ settings.isExcluded name = true ∨ settings.isExcluded (pairName name) = false
  | .object _ object => object.KeepsPairs
  | .objects _ entries => AllObjectsKeepPairs entries
  | _ => True

def Object.KeepsPairs : Object → Prop
  | ⟨_, members⟩ => AllMembersKeepPairs members

def AllMembersKeepPairs : List Member → Prop
  | [] => True
  | member :: members => member.KeepsPairs ∧ AllMembersKeepPairs members

def AllObjectsKeepPairs : List Object → Prop
  | [] => True
  | object :: objects => object.KeepsPairs ∧ AllObjectsKeepPairs objects

end

def Event.KeepsPairs (event : Event) : Prop := AllMembersKeepPairs settings event.members

end Conditions

end EpcisDigest.Abstract
