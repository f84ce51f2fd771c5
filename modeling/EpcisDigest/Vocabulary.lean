import EpcisDigest.Text.Pieces

namespace EpcisDigest

inductive Vocabulary where
  | bizStep | disposition | bizTransactionType | sourceDestType | errorReason | component
  deriving DecidableEq

namespace Vocabulary

def webBase : String := "https://ref.gs1.org/cbv/"
def measurementBase : String := "https://gs1.org/voc/"
def urnLead : String := "urn:epcglobal:cbv:"

def termLead : Vocabulary → String
  | bizStep => "BizStep-"
  | disposition => "Disp-"
  | bizTransactionType => "BTT-"
  | sourceDestType => "SDT-"
  | errorReason => "ER-"
  | component => "Comp-"

def ofUrnSegment? (segment : String) : Option Vocabulary :=
  match segment with
  | "bizstep" => some bizStep
  | "disp" => some disposition
  | "btt" => some bizTransactionType
  | "sdt" => some sourceDestType
  | "er" => some errorReason
  | _ => none

def ofField? (field : String) : Option Vocabulary :=
  match field with
  | "bizStep" => some bizStep
  | "disposition" | "set" | "unset" => some disposition
  | "reason" => some errorReason
  | _ => none

def ofTypeIn? (list : String) : Option Vocabulary :=
  match list with
  | "bizTransactionList" => some bizTransactionType
  | "sourceList" | "destinationList" => some sourceDestType
  | _ => none

def webUri (vocabulary : Vocabulary) (term : String) : String :=
  webBase ++ vocabulary.termLead ++ term

def webUriOfUrn? (value : String) : Option String := do
  let rest ← Text.after? urnLead value
  let (segment, term) ← Text.cut? ':' rest
  let vocabulary ← ofUrnSegment? segment
  pure (vocabulary.webUri term)

def isBare (value : String) : Bool :=
  value != "" && !Text.contains ':' value

def withoutGs1? (value : String) : Option String :=
  Text.after? "gs1:" value

def withoutShortLead (value : String) : String :=
  (withoutGs1? value <|> Text.after? "cbv:" value).getD value

def isAbsolute (value : String) : Bool :=
  Text.startsWith "http://" value || Text.startsWith "https://" value || Text.startsWith "urn:" value

def measurementType (value : String) : String :=
  if isAbsolute value then value else measurementBase ++ withoutShortLead value

def sensorAlert (value : String) : String :=
  if isAbsolute value then value
  else
    let term := withoutShortLead value
    measurementBase ++ "SensorAlertType-" ++ (Text.after? "SensorAlertType-" term).getD term

def sensorComponent (value : String) : String :=
  if isAbsolute value then value
  else
    let term := withoutShortLead value
    component.webUri ((Text.after? component.termLead term).getD term)

end Vocabulary

def eventTypes : List String :=
  ["ObjectEvent", "AggregationEvent", "TransactionEvent", "TransformationEvent", "AssociationEvent"]

def isEventType (name : String) : Bool :=
  eventTypes.contains name

end EpcisDigest
