namespace EpcisDigest

/-- A standard field and its standard children in their canonical order. -/
inductive CatalogField where
  | field (name : String) (children : List CatalogField)

namespace CatalogField

def name : CatalogField → String
  | field name _ => name

def children : CatalogField → List CatalogField
  | field _ children => children

end CatalogField

namespace Catalog

def fields (names : List String) : List CatalogField :=
  names.map fun name => .field name []

def epc : List CatalogField := fields ["epc"]

def quantityElement : List CatalogField :=
  [.field "quantityElement" (fields ["epcClass", "quantity", "uom"])]

def sensorMetadata : List CatalogField :=
  fields ["time", "startTime", "endTime", "deviceID", "deviceMetadata", "rawData",
    "dataProcessingMethod", "bizRules"]

def sensorReport : List CatalogField :=
  fields ["type", "exception", "deviceID", "deviceMetadata", "rawData", "dataProcessingMethod",
    "time", "microorganism", "chemicalSubstance", "value", "component", "stringValue",
    "booleanValue", "hexBinaryValue", "uriValue", "minValue", "maxValue", "meanValue", "sDev",
    "percRank", "percValue", "uom", "coordinateReferenceSystem"]

def sensorElement : List CatalogField :=
  [.field "sensorElement"
    [.field "sensorMetadata" sensorMetadata, .field "sensorReport" sensorReport]]

def event : List CatalogField :=
  fields ["type", "eventTime", "eventTimeZoneOffset", "certificationInfo", "parentID"] ++
  [.field "epcList" epc,
   .field "inputEPCList" epc,
   .field "childEPCs" epc,
   .field "quantityList" quantityElement,
   .field "childQuantityList" quantityElement,
   .field "inputQuantityList" quantityElement,
   .field "outputEPCList" epc,
   .field "outputQuantityList" quantityElement] ++
  fields ["action", "transformationID", "bizStep", "disposition"] ++
  [.field "persistentDisposition" (fields ["set", "unset"]),
   .field "readPoint" (fields ["id"]),
   .field "bizLocation" (fields ["id"]),
   .field "bizTransactionList" (fields ["bizTransaction", "type"]),
   .field "sourceList" (fields ["source", "type"]),
   .field "destinationList" (fields ["destination", "type"]),
   .field "sensorElementList" sensorElement,
   .field "ilmd" [],
   .field "errorDeclaration"
     (fields ["declarationTime", "reason"] ++
      [.field "correctiveEventIDs" (fields ["correctiveEventID"])])] ++
  fields ["recordTime", "eventID"]

structure Place where
  position : Nat
  below : List CatalogField

def root : Place := ⟨0, event⟩

def Place.child? (place : Place) (name : String) : Option Place := do
  let position ← place.below.findIdx? fun field => field.name == name
  let field ← place.below[position]?
  pure ⟨position, field.children⟩

def lookup? (path : List String) : Option Place :=
  path.foldlM Place.child? root

def position? (path : List String) : Option Nat :=
  if path = [] then none else (lookup? path).map Place.position

end Catalog

end EpcisDigest
