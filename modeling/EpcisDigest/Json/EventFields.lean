import EpcisDigest.Event.Tree
import EpcisDigest.Json.Value

namespace EpcisDigest.Json

/-- How the items of an array become fields: as named entries of a list field, as unnamed entries of
    it, or as a field each. -/
inductive ListStyle where
  | named (entry : String)
  | unnamed
  | repeated
  deriving DecidableEq

def ListStyle.ofName (name : String) : ListStyle :=
  if identifierLists.contains name then .named "epc"
  else if quantityLists.contains name then .named "quantityElement"
  else if name = "sensorElementList" then .named "sensorElement"
  else if name = "correctiveEventIDs" then .named "correctiveEventID"
  else if unnamedEntryLists.contains name then .unnamed
  else .repeated

def ListStyle.enclose (style : ListStyle) (name : String) (fields : List Field) : List Field :=
  match style with
  | .repeated => fields
  | _ => [Field.node name fields]

def unlessExcluded (settings : Settings) (name : String) (fields : List Field) : List Field :=
  if settings.isExcluded name then [] else fields

mutual

def memberFields (settings : Settings) (name : String) : Value → List Field
  | .object members => unlessExcluded settings name [Field.node name (objectFields settings members)]
  | .array items =>
    unlessExcluded settings name
      ((ListStyle.ofName name).enclose name (itemFields settings (ListStyle.ofName name) name items))
  | .null => unlessExcluded settings name [Field.node name []]
  | .string text => unlessExcluded settings name [Field.leaf name text]
  | .number literal => unlessExcluded settings name [Field.leaf name literal]
  | .bool true => unlessExcluded settings name [Field.leaf name "true"]
  | .bool false => unlessExcluded settings name [Field.leaf name "false"]

def objectFields (settings : Settings) : List (String × Value) → List Field
  | [] => []
  | (name, value) :: members => memberFields settings name value ++ objectFields settings members

def itemFields (settings : Settings) (style : ListStyle) (name : String) : List Value → List Field
  | [] => []
  | item :: items =>
    (match style, item with
      | .named entry, item => memberFields settings entry item
      | .unnamed, .object members => [Field.wrapper (objectFields settings members)]
      | .repeated, .array nested =>
        [Field.wrapper ((ListStyle.ofName name).enclose name
          (itemFields settings (ListStyle.ofName name) name nested))]
      | _, item => memberFields settings name item) ++
      itemFields settings style name items

end

mutual

/-- Binds the prefixes of a context; of several bindings of one prefix the last one counts. Only
    texts in objects, also in arrays, bind anything. -/
def mergeContext (namespaces : Namespaces) : Value → Namespaces
  | .object members => members.foldl bindMember namespaces
  | .array items => mergeContexts namespaces items
  | _ => namespaces
where
  bindMember (namespaces : Namespaces) : String × Value → Namespaces
    | (lead, .string uri) => namespaces.insert lead uri
    | _ => namespaces

def mergeContexts (namespaces : Namespaces) : List Value → Namespaces
  | [] => namespaces
  | item :: items => mergeContexts (mergeContext namespaces item) items

end

structure NotAnEvent where
  found : String
  deriving DecidableEq

def NotAnEvent.message (fault : NotAnEvent) : String :=
  "unexpected event shape: expected an event object, found " ++ fault.found

def eventTree (settings : Settings) (namespaces : Namespaces) (event : Value) :
    Except NotAnEvent EventTree :=
  match event with
  | .object members =>
    let namespaces :=
      match event.member? "@context" with
      | some context => mergeContext namespaces context
      | none => namespaces
    .ok (EventTree.ofFields namespaces (objectFields settings members))
  | value => .error ⟨value.kind⟩

end EpcisDigest.Json
