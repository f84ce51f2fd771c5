import EpcisDigest.Json.Parse
import EpcisDigest.Source

namespace EpcisDigest.Json

inductive Reason where
  | endOfInput
  | byteOrderMark
  | expected (wanted : UInt8) (found : Option UInt8)
  | string (fault : StringFault)
  | noValue
  | emptyDocument
  | trailing
  deriving DecidableEq

inductive ReadError where
  | source (text : String)
  | malformed (offset : Nat) (reason : Reason)
  | invalidValue
  | notContainer (offset : Nat)
  | tooLarge (size limit : Nat)
  | negativeDemand (demand : Int)
  deriving DecidableEq

def StringFault.message : StringFault → String
  | controlCharacter => "control character in string"
  | badEscape found => "invalid escape '\\" ++ String.singleton (Text.latin1 found) ++ "'"
  | badUnicodeEscape => "invalid \\u escape"
  | unpairedSurrogate => "unpaired surrogate"
  | badCodePoint => "invalid code point"
  | notUtf8 => "invalid UTF-8 in string"

def shownByte (b : UInt8) : String :=
  "'" ++ String.singleton (Text.latin1 b) ++ "'"

def Reason.message : Reason → String
  | endOfInput => "unexpected end of input"
  | byteOrderMark => "invalid byte order mark"
  | expected wanted found =>
    "expected " ++ shownByte wanted ++ ", found " ++ (found.map shownByte).getD "end of input"
  | string fault => fault.message
  | noValue => "expected a value, found end of input"
  | emptyDocument => "empty document"
  | trailing => "trailing characters after document"

def ReadError.message : ReadError → String
  | source text => "I/O error: " ++ text
  | malformed offset reason => "invalid JSON at offset " ++ toString offset ++ ": " ++ reason.message
  | invalidValue => "JSON parse error"
  | notContainer offset => "expected a JSON object or array at offset " ++ toString offset
  | tooLarge size limit => "value of " ++ toString size ++ " bytes exceeds maximum " ++ toString limit
  | negativeDemand demand => "negative demand " ++ toString demand

structure Input where
  rest : List UInt8
  failure : Option String
  offset : Nat
  deriving DecidableEq

namespace Input

def ofSource (source : Source) : Input :=
  ⟨source.bytes, source.failure, 0⟩

def advance (count : Nat) (input : Input) : Input :=
  { input with rest := input.rest.drop count, offset := input.offset + count }

end Input

/-- A reading of an input. After an error the input stands where the error was found. -/
abbrev Reading := EStateM ReadError Input

namespace Reading

def refuse {α : Type} (reason : Reason) : Reading α := fun input =>
  .error (.malformed input.offset reason) input

def skip (count : Nat) : Reading Unit :=
  modify (Input.advance count)

def peek : Reading (Option UInt8) := fun input =>
  match input.rest, input.failure with
  | b :: _, _ => .ok (some b) input
  | [], none => .ok none input
  | [], some text => .error (.source text) input

def next : Reading (Option UInt8) := do
  let found ← peek
  if found.isSome then skip 1
  pure found

def runOut {α : Type} : Reading α := do
  let _ ← peek
  refuse .endOfInput

def takeMark : List UInt8 → Reading Unit
  | [] => pure ()
  | wanted :: mark => do
    if (← next) = some wanted then takeMark mark else refuse .byteOrderMark

def skipMark : Reading Unit := do
  if (← get).offset = 0 then
    if (← peek) = some 0xEF then takeMark [0xEF, 0xBB, 0xBF]

def skipBlanks : Reading Unit := do
  skipMark
  skip ((← get).rest.takeWhile isSpace).length
  let _ ← peek

def peekSignificant : Reading (Option UInt8) := do
  skipBlanks
  peek

def takeIf (wanted : UInt8) : Reading Bool := do
  if (← peekSignificant) = some wanted then
    skip 1
    pure true
  else pure false

def expect (wanted : UInt8) : Reading Unit := do
  if !(← takeIf wanted) then
    refuse (.expected wanted (← peek))

def stringBody : Reading String := fun input =>
  match scanString input.rest with
  | .closed text length => .ok text (input.advance length)
  | .refused fault length =>
    .error (.malformed (input.offset + length) (.string fault)) (input.advance length)
  | .unclosed length => runOut (input.advance length)

def readString : Reading String := do
  expect 0x22
  stringBody

end Reading

/-- Which kind of value is being measured: a literal, which ends at a delimiter, a string in a
    container of the given depth, or the container itself. -/
inductive Measuring where
  | literal
  | string (depth : Nat)
  | escape (depth : Nat)
  | container (depth : Nat)
  deriving DecidableEq

inductive Extent where
  | complete (length : Nat)
  | tooLong (length : Nat)
  | unfinished (length : Nat)
  deriving DecidableEq

def endsLiteral (b : UInt8) : Bool :=
  b == 0x2C || b == 0x7D || b == 0x5D || isSpace b

/-- Measures a value of which `length` bytes have been seen. Brackets are counted and not matched. The
    limit is tested at every byte but one that opens a string, a backslash, and the bracket or quote that
    ends the value. -/
def extentFrom (limit : Nat) (measuring : Measuring) (length : Nat) : List UInt8 → Extent
  | [] => .unfinished length
  | b :: rest =>
    match measuring with
    | .literal =>
      if endsLiteral b then .complete length
      else if limit < length + 1 then .tooLong (length + 1)
      else extentFrom limit .literal (length + 1) rest
    | .string depth =>
      if b = 0x5C then extentFrom limit (.escape depth) (length + 1) rest
      else if b = 0x22 ∧ depth = 0 then .complete (length + 1)
      else if limit < length + 1 then .tooLong (length + 1)
      else extentFrom limit (if b = 0x22 then .container depth else .string depth) (length + 1) rest
    | .escape depth =>
      if limit < length + 1 then .tooLong (length + 1)
      else extentFrom limit (.string depth) (length + 1) rest
    | .container depth =>
      if b = 0x22 then extentFrom limit (.string depth) (length + 1) rest
      else if (b = 0x7D ∨ b = 0x5D) ∧ depth ≤ 1 then .complete (length + 1)
      else if limit < length + 1 then .tooLong (length + 1)
      else
        let depth :=
          if b = 0x7B ∨ b = 0x5B then depth + 1
          else if b = 0x7D ∨ b = 0x5D then depth - 1
          else depth
        extentFrom limit (.container depth) (length + 1) rest

def extent (limit : Nat) : List UInt8 → Extent
  | [] => .unfinished 0
  | b :: rest =>
    if b = 0x22 then extentFrom limit (.string 0) 1 rest
    else if b = 0x7B ∨ b = 0x5B then extentFrom limit (.container 0) 0 (b :: rest)
    else extentFrom limit .literal 0 (b :: rest)

def isLiteralStart (b : UInt8) : Bool :=
  !(b == 0x22 || b == 0x7B || b == 0x5B)

namespace Reading

def captured (limit : Nat) : Reading (List UInt8) := fun input =>
  match extent limit input.rest with
  | .complete length => .ok (input.rest.take length) (input.advance length)
  | .tooLong length => .error (.tooLarge length limit) (input.advance length)
  | .unfinished length =>
    if input.rest.head?.any isLiteralStart then (peek *> pure input.rest) (input.advance length)
    else runOut (input.advance length)

def capture (limit : Nat) : Reading (List UInt8) := do
  if (← peekSignificant).isNone then refuse .noValue
  captured limit

end Reading

end EpcisDigest.Json
