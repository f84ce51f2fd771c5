import EpcisDigest.Json.Number
import EpcisDigest.Json.StringText
import EpcisDigest.Json.Value

namespace EpcisDigest.Json

def isSpace (b : UInt8) : Bool :=
  b == 0x20 || b == 0x09 || b == 0x0A || b == 0x0D

def skipSpaces (bytes : List UInt8) : List UInt8 :=
  bytes.dropWhile isSpace

abbrev Reader (α : Type) := List UInt8 → Option (α × List UInt8)

def string? : Reader String := fun bytes =>
  match scanString bytes with
  | .closed text length => some (text, bytes.drop length)
  | _ => none

def keyword? (word : String) (value : Value) : Reader Value := fun bytes =>
  let letters := Text.bytesOf word
  if letters.isPrefixOf bytes then some (value, bytes.drop letters.length) else none

def scalar? : Reader Value := fun bytes =>
  match bytes with
  | [] => none
  | 0x22 :: rest => (string? rest).map fun found => (.string found.1, found.2)
  | 0x6E :: _ => keyword? "null" .null bytes
  | 0x74 :: _ => keyword? "true" (.bool true) bytes
  | 0x66 :: _ => keyword? "false" (.bool false) bytes
  | _ => (number? bytes).map fun found => (.number found.1, found.2)

def numberName : String := "$serde_json::private::Number"

/-- The value that some members make. An object that begins with the member for a number has no other
    member, and that one holds the text of the number. Of the members of one name the last one counts. -/
def ofMembers? : List (String × Value) → Option Value
  | [] => some (.object [])
  | (name, value) :: others =>
    if name = numberName then
      match value, others with
      | .string text, [] => (literal? text).map .number
      | _, _ => none
    else some (.object (Entries.ofList ((name, value) :: others)))

def member? (value : Reader Value) : Reader (String × Value) := fun bytes =>
  match skipSpaces bytes with
  | 0x22 :: rest => do
    let (name, rest) ← string? rest
    match skipSpaces rest with
    | 0x3A :: rest => do
      let (found, rest) ← value rest
      pure ((name, found), rest)
    | _ => none
  | _ => none

def parts? {α : Type} (part : Reader α) (closing : UInt8) : Nat → Reader (List α)
  | 0, _ => none
  | count + 1, bytes => do
    let (first, bytes) ← part bytes
    match skipSpaces bytes with
    | [] => none
    | b :: rest =>
      if b = closing then some ([first], rest)
      else if b = 0x2C then do
        let (others, rest) ← parts? part closing count rest
        pure (first :: others, rest)
      else none

def contents? {α : Type} (part : Reader α) (closing : UInt8) (count : Nat) : Reader (List α) := fun bytes =>
  match skipSpaces bytes with
  | [] => none
  | b :: rest =>
    if b = closing then some ([], rest) else parts? part closing count bytes

/-- Reads a value behind any blanks. Arrays and objects have at most `count` parts and are nested at
    most `depth` deep. -/
def value? (count : Nat) : Nat → Reader Value
  | 0, bytes => scalar? (skipSpaces bytes)
  | depth + 1, bytes =>
    match skipSpaces bytes with
    | 0x5B :: rest =>
      (contents? (value? count depth) 0x5D count rest).map fun found => (.array found.1, found.2)
    | 0x7B :: rest => do
      let (members, rest) ← contents? (member? (value? count depth)) 0x7D count rest
      pure (← ofMembers? members, rest)
    | bytes => scalar? bytes

def maxDepth : Nat := 127

def parse? (bytes : List UInt8) : Option Value := do
  let (value, rest) ← value? bytes.length maxDepth bytes
  if skipSpaces rest = [] then some value else none

end EpcisDigest.Json
