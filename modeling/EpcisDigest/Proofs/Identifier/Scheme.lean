import EpcisDigest.Proofs.Identifier.CheckDigit

namespace EpcisDigest

/-- How the key in a link is made of a company prefix and a reference: with a check digit, by which it has a given
    length, and perhaps with the first digit of the reference moved to the front; or as they are. -/
inductive KeyForm where
  | checked (length : Nat) (isLed : Bool)
  | joined
  deriving DecidableEq

namespace KeyForm

def digits : KeyForm → String → String → String
  | .checked _ true, company, reference =>
    String.ofList (reference.toList.take 1) ++ company ++ String.ofList (reference.toList.drop 1)
  | _, company, reference => company ++ reference

def key? : KeyForm → String → String → Option String
  | .checked length true, company, reference => ledKey? (length - 1) company reference
  | .checked length false, company, reference => companyKey? (length - 1) company reference
  | .joined, company, reference => some (company ++ reference)

end KeyForm

/-- What the components behind the company prefix and the reference are: none; one that is appended to the key, or
    stands behind a label of its own, or does so unless it is empty or 0; piece and total, then one with a label; or the
    mark for any serial number. -/
inductive Remainder where
  | nothing
  | appended
  | labelled (label : String)
  | optional (label : String)
  | pieces (label : String)
  | any
  deriving DecidableEq

def pathStep (label text : String) : String := "/" ++ (label ++ "/" ++ text)

def Remainder.text? : Remainder → List String → Option String
  | .nothing, [] => some ""
  | .appended, [part] => some part
  | .labelled label, [part] => some (pathStep label part)
  | .optional label, [part] => some (if part = "0" ∨ part = "" then "" else pathStep label part)
  | .pieces label, [piece, total, part] =>
    if isDigits piece && isDigits total then some (piece ++ total ++ pathStep label part) else none
  | .any, [part] => if part = "*" then some "" else none
  | _, _ => none

/-- A scheme of URNs. In a link the key stands behind `label`, and `filler` comes before its first digit. -/
structure Scheme where
  level : UrnLevel
  name : String
  key : KeyForm
  label : String
  filler : String
  remainder : Remainder
  deriving DecidableEq

def schemes : List Scheme :=
  [⟨.individual, "sgtin", .checked 14 true, "01", "", .labelled "21"⟩,
   ⟨.individual, "upui", .checked 14 true, "01", "", .labelled "235"⟩,
   ⟨.group, "lgtin", .checked 14 true, "01", "", .labelled "10"⟩,
   ⟨.individual, "itip", .checked 14 true, "8006", "", .pieces "21"⟩,
   ⟨.pattern, "sgtin", .checked 14 true, "01", "", .any⟩,
   ⟨.individual, "sscc", .checked 18 true, "00", "", .nothing⟩,
   ⟨.individual, "gsrn", .checked 18 false, "8018", "", .nothing⟩,
   ⟨.individual, "gsrnp", .checked 18 false, "8017", "", .nothing⟩,
   ⟨.individual, "sgln", .checked 13 false, "414", "", .optional "254"⟩,
   ⟨.individual, "pgln", .checked 13 false, "417", "", .nothing⟩,
   ⟨.individual, "grai", .checked 13 false, "8003", "0", .appended⟩,
   ⟨.individual, "gdti", .checked 13 false, "253", "", .appended⟩,
   ⟨.individual, "sgcn", .checked 13 false, "255", "", .appended⟩,
   ⟨.individual, "gsin", .checked 17 false, "402", "", .nothing⟩,
   ⟨.individual, "giai", .joined, "8004", "", .nothing⟩,
   ⟨.individual, "ginc", .joined, "401", "", .nothing⟩,
   ⟨.individual, "cpi", .joined, "8010", "", .labelled "8011"⟩]

def Scheme.link? (scheme : Scheme) : List String → Option String
  | company :: reference :: others =>
    (scheme.remainder.text? others).bind fun text =>
      (scheme.key.key? company reference).map fun key => digitalLink [(scheme.label, scheme.filler ++ key)] ++ text
  | _ => none

theorem digitalLink_pair (label key qualifier text : String) :
    digitalLink [(label, key), (qualifier, text)] = digitalLink [(label, key)] ++ pathStep qualifier text := by
  simp [digitalLink, pathStep, String.append_assoc]

theorem digitalLink_append (label key text : String) :
    digitalLink [(label, key ++ text)] = digitalLink [(label, key)] ++ text := by
  simp [digitalLink, String.append_assoc]

section Rows

variable (components : List String)

theorem pattern_link? : Urn.link? ⟨.pattern, "sgtin", components⟩ =
    Scheme.link? ⟨.pattern, "sgtin", .checked 14 true, "01", "", .any⟩ components := by
  rcases components with _ | ⟨company, _ | ⟨item, _ | ⟨serial, _ | ⟨other, others⟩⟩⟩⟩
  case cons.cons.cons.nil =>
    by_cases marked : serial = "*"
    · simp [marked, Urn.link?, Scheme.link?, Remainder.text?, KeyForm.key?, gtin?]
    · simp [marked, Urn.link?, Scheme.link?, Remainder.text?]
  all_goals simp [Urn.link?, Scheme.link?, Remainder.text?]

theorem itip_link? : Urn.link? ⟨.individual, "itip", components⟩ =
    Scheme.link? ⟨.individual, "itip", .checked 14 true, "8006", "", .pieces "21"⟩ components := by
  rcases components with _ | ⟨company, _ | ⟨item, _ | ⟨piece, _ | ⟨total, _ | ⟨serial, _ | ⟨other, others⟩⟩⟩⟩⟩⟩
  case cons.cons.cons.cons.cons.nil =>
    simp only [Urn.link?, Urn.individualLink?, Scheme.link?, Remainder.text?, KeyForm.key?, gtin?, digitalLink_pair,
      digitalLink_append, String.empty_append]
    split
    · simp only [Option.bind_some, String.append_assoc]
    · rfl
  all_goals rfl

theorem sgln_link? : Urn.link? ⟨.individual, "sgln", components⟩ =
    Scheme.link? ⟨.individual, "sgln", .checked 13 false, "414", "", .optional "254"⟩ components := by
  rcases components with _ | ⟨company, _ | ⟨location, _ | ⟨extension, _ | ⟨other, others⟩⟩⟩⟩
  case cons.cons.cons.nil =>
    simp only [Urn.link?, Urn.individualLink?, Scheme.link?, Remainder.text?, KeyForm.key?, digitalLink_pair,
      Option.bind_some, String.empty_append]
    refine congrArg (Option.map · _) (funext fun key => ?_)
    by_cases absent : extension = "0" ∨ extension = ""
    · simp [absent]
    · simp [absent]
  all_goals rfl

end Rows

theorem link?_scheme : ∀ scheme ∈ schemes, ∀ components,
    Urn.link? ⟨scheme.level, scheme.name, components⟩ = scheme.link? components := by
  intro scheme member components
  simp only [schemes, List.mem_cons, List.not_mem_nil, or_false] at member
  rcases member with rfl | rfl | rfl | rfl | rfl | rfl | rfl | rfl | rfl | rfl | rfl | rfl | rfl | rfl | rfl | rfl | rfl
  all_goals try first
    | exact itip_link? components
    | exact pattern_link? components
    | exact sgln_link? components
  -- in all other rows the key is followed by one part at most
  all_goals
    rcases components with _ | ⟨company, _ | ⟨reference, _ | ⟨part, _ | ⟨other, others⟩⟩⟩⟩
  all_goals try rfl
  all_goals
    simp only [Urn.link?, Urn.individualLink?, Scheme.link?, Remainder.text?, KeyForm.key?, gtin?, digitalLink_pair,
      digitalLink_append, Option.bind_some, String.append_empty]
  all_goals rfl

theorem exists_scheme {level : UrnLevel} {name link : String} {components : List String}
    (has : Urn.link? ⟨level, name, components⟩ = some link) :
    ∃ scheme ∈ schemes, scheme.level = level ∧ scheme.name = name := by
  have listed : (level, name) ∈ schemes.map fun scheme => (scheme.level, scheme.name) := by
    simp only [Urn.link?] at has
    split at has
    · simp only [Urn.individualLink?] at has
      split at has
      case h_16 => cases has
      all_goals decide
    · decide
    · decide
    · cases has
  obtain ⟨scheme, member, same⟩ := List.mem_map.mp listed
  exact ⟨scheme, member, congrArg Prod.fst same, congrArg Prod.snd same⟩

end EpcisDigest
