namespace EpcisDigest

structure Decimal where
  negative : Bool
  whole : List Char
  fraction : Option (List Char)
  deriving DecidableEq

namespace Decimal

def ofUnsigned? (negative : Bool) (cs : List Char) : Option Decimal :=
  let whole := cs.takeWhile Char.isDigit
  if whole = [] then none
  else match cs.dropWhile Char.isDigit with
    | [] => some ⟨negative, whole, none⟩
    | c :: fraction =>
      if c = '.' ∧ fraction ≠ [] ∧ fraction.all Char.isDigit
      then some ⟨negative, whole, some fraction⟩
      else none

def ofChars? : List Char → Option Decimal
  | [] => none
  | c :: cs => if c = '-' then ofUnsigned? true cs else ofUnsigned? false (c :: cs)

def toChars (d : Decimal) : List Char :=
  (if d.negative then ['-'] else []) ++ d.whole ++
    match d.fraction with
    | none => []
    | some fraction => '.' :: fraction

def dropTrailingZeros (digits : List Char) : List Char :=
  (digits.reverse.dropWhile (· == '0')).reverse

def shorten (d : Decimal) : Decimal :=
  match d.fraction with
  | none => d
  | some fraction =>
    match dropTrailingZeros fraction with
    | [] => { d with fraction := none }
    | kept => { d with fraction := some kept }

end Decimal

def shortNumber? (value : String) : Option String :=
  (Decimal.ofChars? value.toList).map fun d => String.ofList d.shorten.toChars

end EpcisDigest
