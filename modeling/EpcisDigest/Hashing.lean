import EpcisDigest.Json.EventFields
import EpcisDigest.Json.Feed
import EpcisDigest.Xml.Builder

namespace EpcisDigest

/-- What ends a hashing. `unsortable` is the one end that is not handed to anyone: the run breaks down there. -/
inductive HashError where
  | json (error : Json.ReadError)
  | xml (error : Xml.ReadError)
  | notAnEvent (fault : Json.NotAnEvent)
  | timestamp (fault : Time.InvalidTimestamp)
  | settings (error : SettingsError)
  | unsortable
  deriving DecidableEq

namespace HashError

def message : HashError → String
  | json error => error.message
  | xml error => error.message
  | notAnEvent fault => fault.message
  | timestamp fault => "canonicalization failed: " ++ fault.message
  | settings error => "configuration rejected: " ++ error.message
  | unsortable => "user-provided comparison function does not correctly implement a total order"

def ofFault : CanonicalFault → HashError
  | .timestamp fault => timestamp fault
  | .unsortable => unsortable

end HashError

def hashTree (settings : Settings) (tree : EventTree) : Except HashError Results :=
  (tree.results settings).mapError .ofFault

def hashValue (settings : Settings) (namespaces : Namespaces) (event : Json.Value) :
    Except HashError Results :=
  match Json.eventTree settings namespaces event with
  | .ok tree => hashTree settings tree
  | .error fault => .error (.notAnEvent fault)

/-- The hashing of a JSON document. The namespaces are those of its context when its first event
    comes. -/
structure JsonHashing where
  feed : Json.Feed
  namespaces : Option Namespaces
  failed : Bool

namespace JsonHashing

def ofSource (source : Source) (limit : Nat) : JsonHashing :=
  ⟨Json.Feed.ofSource source limit, none, false⟩

def cancel (hashing : JsonHashing) : JsonHashing :=
  { hashing with feed := hashing.feed.cancel }

def boundNamespaces (feed : Json.Feed) : Namespaces :=
  match Entries.get? "@context" feed.header.stored with
  | some context => Json.mergeContext NameTable.empty context
  | none => NameTable.empty

def next (settings : Settings) (hashing : JsonHashing) :
    Option (Except HashError Results) × JsonHashing :=
  if hashing.failed then (none, hashing)
  else
    match hashing.feed.next with
    | (.error error, feed) => (some (.error (.json error)), { hashing with feed, failed := true })
    | (.ok none, feed) => (none, { hashing with feed })
    | (.ok (some (.header _)), feed) => (none, { hashing with feed })
    | (.ok (some (.event event)), feed) =>
      let namespaces := hashing.namespaces.getD (boundNamespaces feed)
      let result := hashValue settings namespaces event
      (some result, ⟨feed, some namespaces, !result.isOk⟩)

def take (settings : Settings) : Nat → JsonHashing → List (Except HashError Results) × JsonHashing
  | 0, hashing => ([], hashing)
  | count + 1, hashing =>
    match hashing.next settings with
    | (none, hashing) => ([], hashing)
    | (some result, hashing) =>
      let (results, hashing) := take settings count hashing
      (result :: results, hashing)

def drain (settings : Settings) (hashing : JsonHashing) :
    List (Except HashError Results) × JsonHashing :=
  hashing.take settings (hashing.feed.size + 2)

end JsonHashing

def hashJson (settings : Settings) (source : Source) (limit : Nat) : List (Except HashError Results) :=
  ((JsonHashing.ofSource source limit).drain settings).1

def untilError {ε α : Type} : List (Except ε α) → List (Except ε α)
  | [] => []
  | .ok a :: results => .ok a :: untilError results
  | .error e :: _ => [.error e]

def hashXml (settings : Settings) (source : Source) : List (Except HashError Results) :=
  untilError ((Xml.eventTrees settings source).1.map fun tree =>
    (tree.mapError .xml).bind (hashTree settings))

def singleResults (settings : Settings) (results : List (Except HashError Results)) :
    Except HashError (List (Except HashError String)) :=
  match settings.singleOutput with
  | .ok _ => .ok (results.map fun result => result.map fun results => results.first?.getD "")
  | .error error => .error (.settings error)

end EpcisDigest
