import EpcisDigest.CommandLine.Arguments
import EpcisDigest.Hashing
import EpcisDigest.Json.Print

namespace EpcisDigest.CommandLine

inductive Format where
  | auto | xml | json
  deriving DecidableEq

def Format.ofName? (name : String) : Option Format :=
  match name with
  | "auto" => some auto
  | "xml" => some xml
  | "json" => some json
  | _ => none

inductive Command where
  | hash (algorithms : List String) (prehash : Bool) (separator : String) (single : Bool)
  | canonicalize
  deriving DecidableEq

structure Invocation where
  command : Command
  input : Option String
  format : Format
  version : String
  exclude : Option String
  keepsDefaults : Bool
  deriving DecidableEq

def verbose : Switch := ⟨"verbose", some 'v', false, true⟩

def sharedSwitches : List Switch :=
  [verbose,
   ⟨"format", none, true, false⟩,
   ⟨"cbv", none, true, false⟩,
   ⟨"exclude", none, true, false⟩,
   ⟨"no-default-excludes", none, false, false⟩]

def hashSwitches : List Switch :=
  sharedSwitches ++
  [⟨"algorithm", some 'a', true, true⟩,
   ⟨"prehash", none, false, false⟩,
   ⟨"join", none, true, false⟩,
   ⟨"single", none, false, false⟩]

def settle? (switches : List Switch) (arguments : List String) : Option Settled := do
  let settled ← readArguments? switches arguments
  if respectsRepetition switches settled && settled.positional.length ≤ 1 then some settled else none

def invocation? (command : Command) (settled : Settled) : Option Invocation := do
  let format ← Format.ofName? ((settled.value? "format").getD "auto")
  pure {
    command
    input := settled.positional.head?
    format
    version := (settled.value? "cbv").getD "2.0"
    exclude := settled.value? "exclude"
    keepsDefaults := !settled.has "no-default-excludes" }

def commandInvocation? (name : String) (arguments : List String) : Option Invocation :=
  match name with
  | "hash" => do
    let settled ← settle? hashSwitches arguments
    invocation?
      (.hash (settled.values "algorithm") (settled.has "prehash") ((settled.value? "join").getD "")
        (settled.has "single"))
      settled
  | "canonicalize" => do
    let settled ← settle? sharedSwitches arguments
    invocation? .canonicalize settled
  | _ => none

def Invocation.ofArguments? : List String → Option Invocation
  | [] => none
  | argument :: arguments =>
    match meaning [verbose] argument with
    | .positional => commandInvocation? argument arguments
    | .complete _ => Invocation.ofArguments? arguments
    | _ => none

namespace Invocation

def outputNames (algorithms : List String) (prehash : Bool) : List String :=
  let named := algorithms.flatMap fieldNames
  (if prehash then [Output.prehashName] else []) ++ (if named = [] then ["sha-256"] else named)

def draft (invocation : Invocation) (version : Version) : Settings.Draft :=
  let draft := Settings.Draft.standard.withVersion version
  let draft := if invocation.keepsDefaults then draft else draft.clearExcluded
  match invocation.exclude with
  | some list => draft.exclude list
  | none => draft

def settings (invocation : Invocation) : Except SettingsError Settings := do
  let version ← Version.read invocation.version
  let draft := invocation.draft version
  match invocation.command with
  | .canonicalize => ((draft.joinWith "\n").request [Output.prehashName]).build
  | .hash algorithms prehash separator single => do
    let settings ← ((draft.joinWith separator).request (outputNames algorithms prehash)).build
    if single then
      let _ ← settings.singleOutput
    pure settings

end Invocation

structure Report where
  code : Nat
  output : String
  error : Option String
  deriving DecidableEq

namespace Report

def usage : Report := ⟨2, "", none⟩

def success (output : String) : Report := ⟨0, output, none⟩

def failure (output error : String) : Report := ⟨1, output, some ("Error: " ++ error)⟩

/-- A run that breaks down in a sorting reports no error of its own. -/
def ended (output : String) : HashError → Report
  | .unsortable => ⟨101, output, none⟩
  | error => failure output error.message

end Report

inductive Opened where
  | source (source : Source)
  | failed (path reason : String)
  deriving DecidableEq

def isLeadingBlank (b : UInt8) : Bool :=
  b == 0x20 || b == 0x09 || b == 0x0A || b == 0x0C || b == 0x0D

def detect (format : Format) (source : Source) : Except String (Format × Source) :=
  match format with
  | .auto =>
    let source := { source with bytes := source.bytes.dropWhile isLeadingBlank }
    match source.bytes, source.failure with
    | b :: _, _ => .ok (if b = 0x3C then .xml else .json, source)
    | [], none => .ok (.json, source)
    | [], some text => .error text
  | format => .ok (format, source)

def hashSource (settings : Settings) (format : Format) (source : Source) :
    List (Except HashError Results) :=
  match format with
  | .xml => hashXml settings source
  | _ => hashJson settings source Json.defaultLimit

def splitResults {ε α : Type} : List (Except ε α) → List α × Option ε
  | [] => ([], none)
  | .ok a :: results =>
    let (oks, error) := splitResults results
    (a :: oks, error)
  | .error e :: _ => ([], some e)

def resultsText (results : List Results) : String :=
  (Json.Value.array (results.map fun result =>
    .object (result.entries.map fun entry => (entry.1, .string entry.2)))).pretty 0

def singleText (results : List Results) : String :=
  "".intercalate (results.map fun result => result.first?.getD "" ++ "\n")

def linesText (results : List Results) : String :=
  "\n".intercalate (results.map fun result => (result.get? Output.prehashName).getD "" ++ "\n")

namespace Invocation

/-- Without `single` a hash run reports all or nothing; other runs report what came before an error. -/
def report (invocation : Invocation) (outcome : List (Except HashError Results)) : Report :=
  let (results, error) := splitResults outcome
  match invocation.command, error with
  | .hash _ _ _ false, none => .success (resultsText results ++ "\n")
  | .hash _ _ _ false, some error => .ended "" error
  | .hash _ _ _ true, none => .success (singleText results)
  | .hash _ _ _ true, some error => .ended (singleText results) error
  | .canonicalize, none => .success (linesText results)
  | .canonicalize, some error => .ended (linesText results) error

def run (invocation : Invocation) (opened : Opened) : Report :=
  match invocation.settings with
  | .error error => .failure "" ("invalid configuration: " ++ error.message)
  | .ok settings =>
    match opened with
    | .failed path reason => .failure "" ("failed to read " ++ path ++ ": " ++ reason)
    | .source source =>
      match detect invocation.format source with
      | .error text => .failure "" ("failed to write output: " ++ text)
      | .ok (format, source) => invocation.report (hashSource settings format source)

end Invocation

end EpcisDigest.CommandLine
