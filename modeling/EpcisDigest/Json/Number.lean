import EpcisDigest.Text.Utf8

namespace EpcisDigest.Json

def isDigit (b : UInt8) : Bool :=
  0x30 ≤ b && b ≤ 0x39

def digits? (bytes : List UInt8) : Option (List UInt8 × List UInt8) :=
  let digits := bytes.takeWhile isDigit
  if digits = [] then none else some (digits, bytes.dropWhile isDigit)

def whole? (bytes : List UInt8) : Option (List UInt8 × List UInt8) := do
  let (digits, rest) ← digits? bytes
  if digits.head? = some 0x30 ∧ digits.length ≠ 1 then none else some (digits, rest)

def fraction? : List UInt8 → Option (List UInt8 × List UInt8)
  | 0x2E :: bytes => (digits? bytes).map fun found => (0x2E :: found.1, found.2)
  | bytes => some ([], bytes)

def exponent? : List UInt8 → Option (List UInt8 × List UInt8)
  | [] => some ([], [])
  | letter :: bytes =>
    if letter = 0x65 ∨ letter = 0x45 then
      match bytes with
      | 0x2B :: bytes => written 0x2B bytes
      | 0x2D :: bytes => written 0x2D bytes
      | bytes => written 0x2B bytes
    else some ([], letter :: bytes)
where
  written (sign : UInt8) (bytes : List UInt8) : Option (List UInt8 × List UInt8) :=
    (digits? bytes).map fun found => (0x65 :: sign :: found.1, found.2)

def unsigned? (bytes : List UInt8) : Option (List UInt8 × List UInt8) := do
  let (whole, bytes) ← whole? bytes
  let (fraction, bytes) ← fraction? bytes
  let (exponent, bytes) ← exponent? bytes
  pure (whole ++ fraction ++ exponent, bytes)

def signed? : List UInt8 → Option (List UInt8 × List UInt8)
  | 0x2D :: bytes => (unsigned? bytes).map fun found => (0x2D :: found.1, found.2)
  | bytes => unsigned? bytes

def number? (bytes : List UInt8) : Option (String × List UInt8) :=
  (signed? bytes).map fun found => (String.ofList (found.1.map Text.latin1), found.2)

def literal? (text : String) : Option String :=
  match number? (Text.bytesOf text) with
  | some (literal, []) => some literal
  | _ => none

end EpcisDigest.Json
