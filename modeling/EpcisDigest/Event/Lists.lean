namespace EpcisDigest

def identifierLists : List String :=
  ["epcList", "inputEPCList", "outputEPCList", "childEPCs"]

def quantityLists : List String :=
  ["quantityList", "childQuantityList", "inputQuantityList", "outputQuantityList"]

def unnamedEntryLists : List String :=
  ["bizTransactionList", "sourceList", "destinationList"]

def isValueList (name : String) : Bool :=
  identifierLists.contains name || name == "correctiveEventIDs"

end EpcisDigest
