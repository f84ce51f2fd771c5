import EpcisDigest.Decimal
import EpcisDigest.Event.Field
import EpcisDigest.Event.Lists
import EpcisDigest.Identifier
import EpcisDigest.Settings
import EpcisDigest.Time.Instant
import EpcisDigest.Vocabulary

namespace EpcisDigest

open Time (InvalidTimestamp instantText)

def timeFields : List String :=
  ["eventTime", "recordTime", "declarationTime", "startTime", "endTime", "time"]

namespace Leaf

def line (name value : String) : String :=
  name ++ "=" ++ value

def fieldTerm? (name value : String) : Option String :=
  if Vocabulary.isBare value then
    (Vocabulary.ofField? name).map fun vocabulary => line name (vocabulary.webUri value)
  else none

def reported? (parent name value : String) : Option String :=
  if parent = "sensorReport" ∧ value ≠ "" then
    match name with
    | "type" => some (line name (Vocabulary.measurementType value))
    | "exception" => some (line name (Vocabulary.sensorAlert value))
    | "component" => some (line name (Vocabulary.sensorComponent value))
    | _ => none
  else none

def listedType? (parent name value : String) : Option String :=
  if name = "type" ∧ Vocabulary.isBare value then
    (Vocabulary.ofTypeIn? parent).map fun vocabulary => line name (vocabulary.webUri value)
  else none

def beforeTimes? (parent name value : String) : Option String :=
  if identifierLists.contains parent then some (line "epc" (canonicalIdentifier value))
  else if isEpcUrn value then some (line name (canonicalIdentifier value))
  else fieldTerm? name value <|> reported? parent name value

/-- The rules that come behind times; the last of them keeps the value. -/
def afterTimes (parent name value : String) : String :=
  ((Vocabulary.webUriOfUrn? value).map (line name) <|>
    listedType? parent name value <|>
    (Vocabulary.withoutGs1? value).map (line name) <|>
    (if isEventType value then some (line "eventType" value) else none) <|>
    (if value = "" then some name else none) <|>
    (shortNumber? value).map (line name)).getD (line name value)

def standardLine (parent name value : String) : Except InvalidTimestamp String :=
  match beforeTimes? parent name value with
  | some text => .ok text
  | none =>
    if timeFields.contains name ∧ value ≠ "" then (instantText name value).map (line name)
    else .ok (afterTimes parent name value)

def line? (settings : Settings) (lineage : Lineage) (name value : Option String) :
    Except InvalidTimestamp (Option String) :=
  match name with
  | none => .ok none
  | some name =>
    if settings.isExcluded name then .ok none
    else (standardLine (lineage.parentField?.getD "") name (value.getD "")).map some

end Leaf

end EpcisDigest
