import EpcisDigest.Xml.Token

namespace EpcisDigest.Xml

/-- What a document does as it is read. An empty element is opened and closed at once. -/
inductive Step where
  | opening (name : String) (attributes : List (String × String)) (isEmpty : Bool)
  | closing
  | text (text : String)
  deriving DecidableEq

def digitValue? (base : Nat) (c : Char) : Option Nat :=
  let n := c.toNat
  let value :=
    if 0x30 ≤ n ∧ n ≤ 0x39 then n - 0x30
    else if 0x41 ≤ n ∧ n ≤ 0x46 then n - 0x41 + 10
    else if 0x61 ≤ n ∧ n ≤ 0x66 then n - 0x61 + 10
    else base
  if value < base then some value else none

def codeLimit : Nat := 0x110000

/-- The character with a code that is written in one or more digits, other than zero. A number past
    the limit cannot come back below it by more digits, so that it is not told apart from the limit. -/
def coded? (base : Nat) (digits : List Char) : Option Char := do
  let values ← digits.mapM (digitValue? base)
  let code := values.foldl (fun code value => min (code * base + value) codeLimit) 0
  if code.isValidChar ∧ code ≠ 0 then some (Char.ofNat code) else none

def reference? (name : List Char) : Option Char :=
  match name with
  | '#' :: 'x' :: digits => coded? 16 digits
  | '#' :: digits => coded? 10 digits
  | name =>
    match String.ofList name with
    | "lt" => some '<'
    | "gt" => some '>'
    | "amp" => some '&'
    | "apos" => some '\''
    | "quot" => some '"'
    | _ => none

def resolveFrom (name : Option (List Char)) : List Char → Option (List Char)
  | [] => if name.isNone then some [] else none
  | c :: cs =>
    match name with
    | none => if c = '&' then resolveFrom (some []) cs else (resolveFrom none cs).map (c :: ·)
    | some name =>
      if c = ';' then do
        let meant ← reference? name.reverse
        let rest ← resolveFrom none cs
        pure (meant :: rest)
      else if c = '&' then none
      else resolveFrom (some (c :: name)) cs

def resolved (bytes : List UInt8) : Except Cause String :=
  match Text.ofBytes? bytes with
  | none => .error .badEncoding
  | some text =>
    match resolveFrom none text.toList with
    | none => .error .badReference
    | some cs => .ok (String.ofList cs)

def lossyText (bytes : List UInt8) : String :=
  String.ofList (Text.ofBytesLossy bytes)

def attribute? (bytes : List UInt8) : Option (List UInt8 × List UInt8 × List UInt8) :=
  let inName (b : UInt8) := b != 0x3D && !isSpace b
  match bytes with
  | [] => none
  | first :: rest =>
    match (rest.dropWhile inName).dropWhile isSpace with
    | 0x3D :: value =>
      match value.dropWhile isSpace with
      | [] => none
      | quote :: value =>
        if quote = 0x22 ∨ quote = 0x27 then
          match value.dropWhile (· != quote) with
          | [] => none
          | _ :: after => some (first :: rest.takeWhile inName, value.takeWhile (· != quote), after)
        else none
    | _ => none

def attributesWithin (seen : List (List UInt8)) : Nat → List UInt8 → Except Cause (List (String × String))
  | 0, _ => .ok []
  | count + 1, bytes =>
    match bytes.dropWhile isSpace with
    | [] => .ok []
    | bytes =>
      match attribute? bytes with
      | none => .error .badAttribute
      | some (name, value, after) =>
        if name ∈ seen then .error .badAttribute
        else do
          let value ← resolved value
          let others ← attributesWithin (name :: seen) count after
          pure ((lossyText name, value) :: others)

def element (content : List UInt8) (isEmpty : Bool) : Except Cause Step := do
  let name := nameOf content
  let attributes ← attributesWithin [] content.length (content.drop name.length)
  pure (.opening (lossyText name) attributes isEmpty)

def Step.ofToken : Token → Except Cause (Option Step)
  | .opening content => (element content false).map some
  | .empty content => (element content true).map some
  | .closing => .ok (some .closing)
  | .text content => (resolved content).map fun text => some (.text text)
  | .verbatim content => .ok (some (.text (lossyText content)))
  | .ignored => .ok none

/-- The steps of at most `count` tokens, and the error that ended them, if one did. An error is placed
    where the token before it ended. -/
def stepsWithin : Nat → Lexer → List Step × Option ReadError
  | 0, _ => ([], none)
  | count + 1, lexer =>
    match lexer.next with
    | .finished => ([], none)
    | .failed cause => ([], some (.markup lexer.offset cause))
    | .doctype => ([], some (.refused .doctype))
    | .token token after =>
      match Step.ofToken token with
      | .error cause => ([], some (.markup lexer.offset cause))
      | .ok step =>
        let (steps, failure) := stepsWithin count after
        (step.toList ++ steps, failure)

def steps (source : Source) : List Step × Option ReadError :=
  stepsWithin (source.bytes.length + 1) (Lexer.ofSource source)

end EpcisDigest.Xml
