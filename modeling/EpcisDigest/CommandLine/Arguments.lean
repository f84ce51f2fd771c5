import EpcisDigest.Text.Pieces

namespace EpcisDigest.CommandLine

structure Switch where
  name : String
  letter : Option Char
  takesValue : Bool
  repeatable : Bool
  deriving DecidableEq

/-- What arguments set, in their order, and those that are no options. A switch without a value has
    the empty one. -/
structure Settled where
  set : List (String × String)
  positional : List String
  deriving DecidableEq

namespace Settled

def empty : Settled := ⟨[], []⟩

def withPositional (value : String) (settled : Settled) : Settled :=
  { settled with positional := value :: settled.positional }

def values (settled : Settled) (name : String) : List String :=
  settled.set.filterMap fun option => if option.1 = name then some option.2 else none

def value? (settled : Settled) (name : String) : Option String :=
  (settled.values name).head?

def has (settled : Settled) (name : String) : Bool :=
  (settled.value? name).isSome

end Settled

def isValue (argument : String) : Bool :=
  argument == "-" || !Text.startsWith "-" argument

inductive Letters where
  | unknown
  | complete (set : List (String × String))
  | wanting (set : List (String × String)) (name : String)
  deriving DecidableEq

def readLetters (switches : List Switch) : List Char → Letters
  | [] => .complete []
  | c :: cs =>
    match switches.find? fun option => option.letter = some c with
    | none => .unknown
    | some option =>
      if option.takesValue then
        match cs with
        | [] => .wanting [] option.name
        | c :: cs => .complete [(option.name, String.ofList (if c = '=' then cs else c :: cs))]
      else
        match readLetters switches cs with
        | .unknown => .unknown
        | .complete set => .complete ((option.name, "") :: set)
        | .wanting set name => .wanting ((option.name, "") :: set) name

inductive Meaning where
  | wrong
  | positional
  | rest
  | complete (set : List (String × String))
  | wanting (set : List (String × String)) (name : String)
  deriving DecidableEq

def longMeaning (switches : List Switch) (written : String) : Meaning :=
  let (name, attached) :=
    match Text.cut? '=' written with
    | some (name, value) => (name, some value)
    | none => (written, none)
  match switches.find? fun option => option.name = name with
  | none => .wrong
  | some option =>
    match option.takesValue, attached with
    | true, some value => .complete [(name, value)]
    | true, none => .wanting [] name
    | false, some _ => .wrong
    | false, none => .complete [(name, "")]

def meaning (switches : List Switch) (argument : String) : Meaning :=
  if argument = "--" then .rest
  else if isValue argument then .positional
  else
    match Text.after? "--" argument with
    | some written => longMeaning switches written
    | none =>
      match readLetters switches (argument.toList.drop 1) with
      | .unknown => .wrong
      | .complete set => .complete set
      | .wanting set name => .wanting set name

/-- Reads options and other arguments in any order; behind two dashes there are no options. -/
def readArguments? (switches : List Switch) : List String → Option Settled
  | [] => some .empty
  | argument :: arguments =>
    match meaning switches argument with
    | .wrong => none
    | .positional => (readArguments? switches arguments).map (Settled.withPositional argument)
    | .rest => some ⟨[], arguments⟩
    | .complete set => (readArguments? switches arguments).map fun settled =>
        { settled with set := set ++ settled.set }
    | .wanting set name =>
      match arguments with
      | [] => none
      | value :: arguments =>
        if isValue value then
          (readArguments? switches arguments).map fun settled =>
            { settled with set := set ++ (name, value) :: settled.set }
        else none

def respectsRepetition (switches : List Switch) (settled : Settled) : Bool :=
  switches.all fun option => option.repeatable || (settled.values option.name).length ≤ 1

end EpcisDigest.CommandLine
