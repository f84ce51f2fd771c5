import EpcisDigest.NameTable
import EpcisDigest.Output

namespace EpcisDigest

inductive SettingsError where
  | noOutputs
  | severalOutputs (count : Nat)
  | unknownVersion (text : String)
  deriving DecidableEq

def SettingsError.message : SettingsError → String
  | noOutputs => "at least one output (digest algorithm or \"prehash\") must be requested"
  | severalOutputs count =>
    toString count ++ " outputs requested but the single-string result shape carries exactly one"
  | unknownVersion text => "unknown CBV version '" ++ text ++ "' (expected 2.0 or 2.1)"

def Version.read (text : String) : Except SettingsError Version :=
  match Version.ofText? text with
  | some version => .ok version
  | none => .error (.unknownVersion text)

def fieldNames (list : String) : List String :=
  ((Text.pieces ',' list).map Text.trim).filter (· != "")

def defaultExcluded : NameSet :=
  NameSet.ofNames ["errorDeclaration", "recordTime", "eventID", "@context"]

structure Settings.Draft where
  version : Version
  excluded : NameSet
  separator : String
  outputs : List Output
  deriving DecidableEq

structure Settings extends Settings.Draft where
  outputs_ne_nil : outputs ≠ []
  deriving DecidableEq

namespace Settings

def standard : Settings where
  version := .v2_0
  excluded := defaultExcluded
  separator := ""
  outputs := [Output.ofName "sha-256"]
  outputs_ne_nil := List.cons_ne_nil _ _

def isExcluded (settings : Settings) (name : String) : Bool :=
  settings.excluded.contains name

def singleOutput (settings : Settings) : Except SettingsError Output :=
  match settings.outputs with
  | [output] => .ok output
  | outputs => .error (.severalOutputs outputs.length)

namespace Draft

def standard : Draft := Settings.standard.toDraft

def withVersion (draft : Draft) (version : Version) : Draft :=
  { draft with version }

def exclude (draft : Draft) (list : String) : Draft :=
  { draft with excluded := draft.excluded.union (fieldNames list) }

def clearExcluded (draft : Draft) : Draft :=
  { draft with excluded := NameTable.empty }

def resetExcluded (draft : Draft) : Draft :=
  { draft with excluded := defaultExcluded }

def joinWith (draft : Draft) (separator : String) : Draft :=
  { draft with separator }

def request (draft : Draft) (names : List String) : Draft :=
  { draft with outputs := names.map Output.ofName }

def build (draft : Draft) : Except SettingsError Settings :=
  if h : draft.outputs ≠ [] then .ok ⟨draft, h⟩ else .error .noOutputs

end Draft

end Settings

end EpcisDigest
