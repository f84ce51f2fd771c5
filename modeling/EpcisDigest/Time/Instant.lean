import EpcisDigest.Text.Blank
import EpcisDigest.Time.Date

open EpcisDigest.Text

namespace EpcisDigest.Time

/-- A moment in UTC to the millisecond. Second 60 is an inserted second, allowed in any minute. -/
structure Instant where
  date : Date
  hour : Nat
  minute : Nat
  second : Nat
  millisecond : Nat
  deriving DecidableEq

namespace Instant

def atOffset (offset : Int) (shown : Instant) : Instant :=
  let minutes := (shown.hour * 60 + shown.minute : Nat) - offset
  let date :=
    if minutes < 0 then shown.date.previous
    else if 1440 ≤ minutes then shown.date.next
    else shown.date
  let ofDay := (minutes % 1440).toNat
  { shown with date, hour := ofDay / 60, minute := ofDay % 60 }

end Instant

def numberOf (digits : List Char) : Nat :=
  digits.foldl (fun n c => n * 10 + (c.toNat - '0'.toNat)) 0

def fixedDigits? (count : Nat) (cs : List Char) : Option (Nat × List Char) :=
  let digits := cs.take count
  if digits.length = count ∧ digits.all Char.isDigit then some (numberOf digits, cs.drop count)
  else none

def someDigits? (count : Nat) (cs : List Char) : Option (Nat × List Char) :=
  let cs := cs.dropWhile isBlank
  let digits := (cs.take count).takeWhile Char.isDigit
  if digits = [] then none else some (numberOf digits, cs.drop digits.length)

def char? (expected : Char) : List Char → Option (List Char)
  | [] => none
  | c :: cs => if c = expected then some cs else none

def fraction? : List Char → Option (Nat × List Char)
  | '.' :: cs =>
    let digits := cs.takeWhile Char.isDigit
    if digits = [] then none
    else some (numberOf ((digits ++ ['0', '0', '0']).take 3), cs.dropWhile Char.isDigit)
  | cs => some (0, cs)

def instant? (date : Date) (hour minute second millisecond : Nat) : Option Instant :=
  if date.Valid ∧ hour ≤ 23 ∧ minute ≤ 59 ∧ second ≤ 60
  then some ⟨date, hour, minute, second, millisecond⟩
  else none

/-- Minutes east of UTC: `Z`, or a sign with hours and minutes, less than a day. The minus sign may
    also be U+2212. -/
def offset? : List Char → Option Int
  | ['Z'] | ['z'] => some 0
  | sign :: cs => do
    let factor ←
      if sign = '+' then some 1 else if sign = '-' ∨ sign = '\u2212' then some (-1) else none
    let (hours, cs) ← fixedDigits? 2 cs
    let (minutes, cs) ← fixedDigits? 2 (← char? ':' cs)
    if cs = [] ∧ hours ≤ 23 ∧ minutes ≤ 59 then some (factor * (hours * 60 + minutes : Nat)) else none
  | [] => none

def dateEnd? : List Char → Option (List Char)
  | [] => none
  | c :: cs => if c = 'T' ∨ c = 't' ∨ c = ' ' then some cs else none

def readWithOffset? (cs : List Char) : Option Instant := do
  let (year, cs) ← fixedDigits? 4 cs
  let (month, cs) ← fixedDigits? 2 (← char? '-' cs)
  let (day, cs) ← fixedDigits? 2 (← char? '-' cs)
  let (hour, cs) ← fixedDigits? 2 (← dateEnd? cs)
  let (minute, cs) ← fixedDigits? 2 (← char? ':' cs)
  let (second, cs) ← fixedDigits? 2 (← char? ':' cs)
  let (millisecond, cs) ← fraction? cs
  let offset ← offset? cs
  let shown ← instant? ⟨year, month, day⟩ hour minute second millisecond
  pure (shown.atOffset offset)

/-- The number that a year of any length stands for. Seven digits are enough to tell that a longer one
    has no place on the time line. -/
def longYear (digits : List Char) : Nat :=
  numberOf ((digits.dropWhile (· == '0')).take 7)

def year? (cs : List Char) : Option (Int × List Char) :=
  match cs.dropWhile isBlank with
  | [] => none
  | c :: cs =>
    if c = '+' ∨ c = '-' then
      let digits := cs.takeWhile Char.isDigit
      if digits = [] then none
      else
        let year : Int := longYear digits
        some (if c = '-' then -year else year, cs.dropWhile Char.isDigit)
    else (someDigits? 4 (c :: cs)).map fun found => ((found.1 : Int), found.2)

def yearInRange (year : Int) : Prop :=
  -262143 ≤ year ∧ year ≤ 262142

instance (year : Int) : Decidable (yearInRange year) :=
  inferInstanceAs (Decidable (_ ∧ _))

/-- Reads a date-time without offset, taken as UTC; numbers may be shorter than their width and
    follow blanks. -/
def readLocal? (cs : List Char) : Option Instant := do
  let (year, cs) ← year? cs
  let (month, cs) ← someDigits? 2 (← char? '-' cs)
  let (day, cs) ← someDigits? 2 (← char? '-' cs)
  let (hour, cs) ← someDigits? 2 (← char? 'T' cs)
  let (minute, cs) ← someDigits? 2 (← char? ':' cs)
  let (second, cs) ← someDigits? 2 (← char? ':' cs)
  let (millisecond, cs) ← fraction? cs
  if cs = [] ∧ yearInRange year then instant? ⟨year, month, day⟩ hour minute second millisecond
  else none

def Instant.read? (value : String) : Option Instant :=
  let cs := trimChars value.toList
  readWithOffset? cs <|> readLocal? cs

def padded (width n : Nat) : List Char :=
  let digits := Nat.toDigits 10 n
  List.replicate (width - digits.length) '0' ++ digits

def yearText (year : Int) : List Char :=
  if 0 ≤ year ∧ year ≤ 9999 then padded 4 year.toNat
  else (if year < 0 then '-' else '+') :: padded 4 year.natAbs

namespace Instant

def toChars (i : Instant) : List Char :=
  yearText i.date.year ++ '-' :: padded 2 i.date.month ++ '-' :: padded 2 i.date.day ++
    'T' :: padded 2 i.hour ++ ':' :: padded 2 i.minute ++ ':' :: padded 2 i.second ++
    '.' :: padded 3 i.millisecond ++ ['Z']

def text (i : Instant) : String :=
  String.ofList i.toChars

end Instant

structure InvalidTimestamp where
  field : String
  value : String
  deriving DecidableEq

def InvalidTimestamp.message (fault : InvalidTimestamp) : String :=
  fault.field ++ " ('" ++ fault.value ++ "') is not a valid timestamp"

def instantText (field value : String) : Except InvalidTimestamp String :=
  match Instant.read? value with
  | some instant => .ok instant.text
  | none => .error ⟨field, value⟩

end EpcisDigest.Time
