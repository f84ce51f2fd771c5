import EpcisDigest.Text.Blank
import EpcisDigest.Text.Pieces

namespace EpcisDigest

inductive Version where
  | v2_0 | v2_1
  deriving DecidableEq

/-- Where user extensions stand: behind all standard fields, or in the field that contains them. -/
inductive Placement where
  | hoisted | inline
  deriving DecidableEq

namespace Version

def number : Version → String
  | v2_0 => "2.0"
  | v2_1 => "2.1"

def tag : Version → String
  | v2_0 => "CBV2.0"
  | v2_1 => "CBV2.1"

def placement : Version → Placement
  | v2_0 => .hoisted
  | v2_1 => .inline

def ofText? (text : String) : Option Version :=
  match Text.upperAscii (Text.trim text) with
  | "2.0" | "CBV2.0" | "V1" => some v2_0
  | "2.1" | "CBV2.1" | "V2" => some v2_1
  | _ => none

end Version

end EpcisDigest
