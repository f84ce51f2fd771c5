import EpcisDigest.Entries

namespace EpcisDigest.Json

/-- A JSON value. A number is kept as it is written, but for its exponent, which has a small `e` and a
    sign; the members of an object have distinct names. -/
inductive Value where
  | null
  | bool (value : Bool)
  | number (literal : String)
  | string (text : String)
  | array (items : List Value)
  | object (members : List (String × Value))

abbrev Object := Entries Value

namespace Value

def text? : Value → Option String
  | string text => some text
  | _ => none

def member? (name : String) : Value → Option Value
  | object members => Entries.get? name members
  | _ => none

def eventType? (value : Value) : Option String :=
  (value.member? "type").bind text?

def kind : Value → String
  | null => "null"
  | bool _ => "a boolean"
  | number _ => "a number"
  | string _ => "a string"
  | array _ => "an array"
  | object _ => "an object"

end Value

end EpcisDigest.Json
