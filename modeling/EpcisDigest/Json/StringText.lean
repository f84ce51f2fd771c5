import EpcisDigest.Text.Utf8

namespace EpcisDigest.Json

inductive StringFault where
  | controlCharacter
  | badEscape (found : UInt8)
  | badUnicodeEscape
  | unpairedSurrogate
  | badCodePoint
  | notUtf8
  deriving DecidableEq

/-- What a reader of a string expects next. A code of four hexadecimal digits may be the first half of
    a pair; `high` is that first half. -/
inductive StringMode where
  | plain
  | escape
  | digits (high : Option Nat) (left code : Nat)
  | pairSlash (high : Nat)
  | pairLetter (high : Nat)
  deriving DecidableEq

def hexValue? (b : UInt8) : Option Nat :=
  let n := b.toNat
  if 0x30 ≤ n ∧ n ≤ 0x39 then some (n - 0x30)
  else if 0x41 ≤ n ∧ n ≤ 0x46 then some (n - 0x41 + 10)
  else if 0x61 ≤ n ∧ n ≤ 0x66 then some (n - 0x61 + 10)
  else none

def shortEscape? (b : UInt8) : Option UInt8 :=
  match Text.latin1 b with
  | '"' => some 0x22
  | '\\' => some 0x5C
  | '/' => some 0x2F
  | 'b' => some 0x08
  | 'f' => some 0x0C
  | 'n' => some 0x0A
  | 'r' => some 0x0D
  | 't' => some 0x09
  | _ => none

def isHighSurrogate (code : Nat) : Bool := 0xD800 ≤ code && code < 0xDC00

def isLowSurrogate (code : Nat) : Bool := 0xDC00 ≤ code && code < 0xE000

def reversedBytes (code : Nat) : List UInt8 :=
  (String.utf8EncodeChar (Char.ofNat code)).reverse

def closeCode (high : Option Nat) (code : Nat) (out : List UInt8) :
    Except StringFault (StringMode × List UInt8) :=
  match high with
  | none =>
    if isHighSurrogate code then .ok (.pairSlash code, out)
    else if isLowSurrogate code then .error .badCodePoint
    else .ok (.plain, reversedBytes code ++ out)
  | some high =>
    if isLowSurrogate code
    then .ok (.plain, reversedBytes (0x10000 + (high - 0xD800) * 0x400 + (code - 0xDC00)) ++ out)
    else .error .unpairedSurrogate

/-- Reads one byte of a string that does not close it; `out` holds the bytes read so far, the last
    one first. -/
def StringMode.step (mode : StringMode) (out : List UInt8) (b : UInt8) :
    Except StringFault (StringMode × List UInt8) :=
  match mode with
  | .plain =>
    if b = 0x5C then .ok (.escape, out)
    else if b < 0x20 then .error .controlCharacter
    else .ok (.plain, b :: out)
  | .escape =>
    if b = 0x75 then .ok (.digits none 4 0, out)
    else match shortEscape? b with
      | some meant => .ok (.plain, meant :: out)
      | none => .error (.badEscape b)
  | .digits high left code =>
    match hexValue? b with
    | none => .error .badUnicodeEscape
    | some digit =>
      let code := code * 16 + digit
      if left ≤ 1 then closeCode high code out else .ok (.digits high (left - 1) code, out)
  | .pairSlash high =>
    if b = 0x5C then .ok (.pairLetter high, out) else .error .unpairedSurrogate
  | .pairLetter high =>
    if b = 0x75 then .ok (.digits (some high) 4 0, out) else .error .unpairedSurrogate

inductive StringScan where
  | closed (text : String) (length : Nat)
  | refused (fault : StringFault) (length : Nat)
  | unclosed (length : Nat)
  deriving DecidableEq

def scanFrom (mode : StringMode) (out : List UInt8) (length : Nat) : List UInt8 → StringScan
  | [] => .unclosed length
  | b :: rest =>
    if mode = .plain ∧ b = 0x22 then
      match Text.ofBytes? out.reverse with
      | some text => .closed text (length + 1)
      | none => .refused .notUtf8 (length + 1)
    else match mode.step out b with
      | .ok (mode, out) => scanFrom mode out (length + 1) rest
      | .error fault => .refused fault (length + 1)

def scanString (bytes : List UInt8) : StringScan :=
  scanFrom .plain [] 0 bytes

end EpcisDigest.Json
