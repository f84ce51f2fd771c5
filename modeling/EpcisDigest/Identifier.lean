import EpcisDigest.Text.Pieces

namespace EpcisDigest

def weightedSum (digits : List Char) : Nat :=
  go 3 digits.reverse
where
  go (weight : Nat) : List Char → Nat
    | [] => 0
    | c :: cs => weight * (c.toNat - '0'.toNat) + go (4 - weight) cs

def isDigits (s : String) : Bool :=
  s != "" && s.toList.all Char.isDigit

def checkDigit? (digits : String) : Option Char :=
  if isDigits digits then some (Char.ofNat ('0'.toNat + (10 - weightedSum digits.toList % 10) % 10))
  else none

def withCheckDigit? (digits : String) : Option String :=
  (checkDigit? digits).map fun c => digits.push c

def companyKey? (length : Nat) (company reference : String) : Option String :=
  if isDigits company && isDigits reference && company.length + reference.length == length
  then withCheckDigit? (company ++ reference)
  else none

/-- As `companyKey?`, the first digit of the reference moved before the company prefix. -/
def ledKey? (length : Nat) (company reference : String) : Option String :=
  if isDigits company && isDigits reference && company.length + reference.length == length
  then
    withCheckDigit? (String.ofList (reference.toList.take 1) ++ company ++
      String.ofList (reference.toList.drop 1))
  else none

def gtin? (company item : String) : Option String :=
  ledKey? 13 company item

def linkBase : String := "https://id.gs1.org"

def digitalLink (path : List (String × String)) : String :=
  path.foldl (fun link step => link ++ "/" ++ step.1 ++ "/" ++ step.2) linkBase

inductive UrnLevel where
  | individual | group | pattern
  deriving DecidableEq

namespace UrnLevel

def lead : UrnLevel → String
  | individual => "urn:epc:id:"
  | group => "urn:epc:class:"
  | pattern => "urn:epc:idpat:"

end UrnLevel

structure Urn where
  level : UrnLevel
  scheme : String
  components : List String
  deriving DecidableEq

namespace Urn

def ofText? (level : UrnLevel) (value : String) : Option Urn := do
  let rest ← Text.after? level.lead value
  let (scheme, body) ← Text.cut? ':' rest
  pure ⟨level, scheme, Text.pieces '.' body⟩

def parse? (value : String) : Option Urn :=
  ofText? .individual value <|> ofText? .group value <|> ofText? .pattern value

def individualLink? (scheme : String) (components : List String) : Option String :=
  match scheme, components with
  | "sgtin", [company, item, serial] =>
    (gtin? company item).map fun key => digitalLink [("01", key), ("21", serial)]
  | "sscc", [company, serial] =>
    (ledKey? 17 company serial).map fun key => digitalLink [("00", key)]
  | "sgln", [company, location, extension] =>
    (companyKey? 12 company location).map fun key =>
      if extension = "0" || extension = "" then digitalLink [("414", key)]
      else digitalLink [("414", key), ("254", extension)]
  | "pgln", [company, party] =>
    (companyKey? 12 company party).map fun key => digitalLink [("417", key)]
  | "grai", [company, assetType, serial] =>
    (companyKey? 12 company assetType).map fun key => digitalLink [("8003", "0" ++ key ++ serial)]
  | "giai", [company, asset] => some (digitalLink [("8004", company ++ asset)])
  | "gsrn", [company, service] =>
    (companyKey? 17 company service).map fun key => digitalLink [("8018", key)]
  | "gsrnp", [company, service] =>
    (companyKey? 17 company service).map fun key => digitalLink [("8017", key)]
  | "gdti", [company, documentType, serial] =>
    (companyKey? 12 company documentType).map fun key => digitalLink [("253", key ++ serial)]
  | "sgcn", [company, coupon, serial] =>
    (companyKey? 12 company coupon).map fun key => digitalLink [("255", key ++ serial)]
  | "cpi", [company, part, serial] =>
    some (digitalLink [("8010", company ++ part), ("8011", serial)])
  | "ginc", [company, consignment] => some (digitalLink [("401", company ++ consignment)])
  | "gsin", [company, shipper] =>
    (companyKey? 16 company shipper).map fun key => digitalLink [("402", key)]
  | "itip", [company, item, piece, total, serial] =>
    if isDigits piece && isDigits total then
      (gtin? company item).map fun key => digitalLink [("8006", key ++ piece ++ total), ("21", serial)]
    else none
  | "upui", [company, item, extension] =>
    (gtin? company item).map fun key => digitalLink [("01", key), ("235", extension)]
  | _, _ => none

def link? (urn : Urn) : Option String :=
  match urn.level, urn.scheme, urn.components with
  | .individual, scheme, components => individualLink? scheme components
  | .group, "lgtin", [company, item, lot] =>
    (gtin? company item).map fun key => digitalLink [("01", key), ("10", lot)]
  | .pattern, "sgtin", [company, item, "*"] =>
    (gtin? company item).map fun key => digitalLink [("01", key)]
  | _, _, _ => none

end Urn

def isEpcUrn (value : String) : Bool :=
  [UrnLevel.individual, .group, .pattern].any fun level => Text.startsWith level.lead value

def digitalLink? (value : String) : Option String :=
  (Urn.parse? value).bind Urn.link?

def canonicalIdentifier (value : String) : String :=
  (digitalLink? value).getD value

end EpcisDigest
