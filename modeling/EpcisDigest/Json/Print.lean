import EpcisDigest.Json.Value
import EpcisDigest.Text.Hex

namespace EpcisDigest.Json

def escaped (c : Char) : List Char :=
  match c with
  | '"' => ['\\', '"']
  | '\\' => ['\\', '\\']
  | '\x08' => ['\\', 'b']
  | '\x0c' => ['\\', 'f']
  | '\n' => ['\\', 'n']
  | '\r' => ['\\', 'r']
  | '\t' => ['\\', 't']
  | c =>
    if c.toNat < 0x20
    then ['\\', 'u', '0', '0', Text.hexDigit (c.toNat / 16), Text.hexDigit (c.toNat % 16)]
    else [c]

def quoted (text : String) : String :=
  String.ofList ('"' :: text.toList.flatMap escaped ++ ['"'])

namespace Value

mutual

def compact : Value → String
  | null => "null"
  | bool true => "true"
  | bool false => "false"
  | number literal => literal
  | string text => quoted text
  | array items => "[" ++ ",".intercalate (compactItems items) ++ "]"
  | object members => "\x7b" ++ ",".intercalate (compactMembers members) ++ "\x7d"

def compactItems : List Value → List String
  | [] => []
  | item :: items => item.compact :: compactItems items

def compactMembers : List (String × Value) → List String
  | [] => []
  | (name, value) :: members => (quoted name ++ ":" ++ value.compact) :: compactMembers members

end

def block (opening closing : String) (indent : Nat) (parts : List String) : String :=
  match parts with
  | [] => opening ++ closing
  | parts =>
    let pad (n : Nat) := String.ofList (List.replicate n ' ')
    opening ++ "\n" ++ ",\n".intercalate (parts.map (pad (indent + 2) ++ ·)) ++ "\n" ++
      pad indent ++ closing

mutual

def pretty (indent : Nat) : Value → String
  | array items => block "[" "]" indent (prettyItems (indent + 2) items)
  | object members => block "\x7b" "\x7d" indent (prettyMembers (indent + 2) members)
  | null => "null"
  | bool true => "true"
  | bool false => "false"
  | number literal => literal
  | string text => quoted text

def prettyItems (indent : Nat) : List Value → List String
  | [] => []
  | item :: items => item.pretty indent :: prettyItems indent items

def prettyMembers (indent : Nat) : List (String × Value) → List String
  | [] => []
  | (name, value) :: members =>
    (quoted name ++ ": " ++ value.pretty indent) :: prettyMembers indent members

end

end Value

end EpcisDigest.Json
