import EpcisDigest.CommandLine.Invocation

namespace EpcisDigest.CommandLine

def systemText : IO.Error → String
  | .noFileOrDirectory _ code _ => s!"No such file or directory (os error {code})"
  | .alreadyExists _ code details | .invalidArgument _ code details | .permissionDenied _ code details
  | .resourceExhausted _ code details | .inappropriateType _ code details | .noSuchThing _ code details
  | .interrupted _ code details | .otherError code details | .resourceBusy code details
  | .resourceVanished code details | .unsupportedOperation code details | .hardwareFault code details
  | .unsatisfiedConstraints code details | .illegalOperation code details
  | .protocolError code details | .timeExpired code details => s!"{details} (os error {code})"
  | error => toString error

/-- Reads all of a stream; what could not be read is left out, and the failure told. -/
def readSource (stream : IO.FS.Stream) : IO Source := do
  try
    let bytes ← stream.readBinToEnd
    pure ⟨bytes.toList, none⟩
  catch error => pure ⟨[], some (systemText error)⟩

def openInput (input : Option String) : IO Opened := do
  match input with
  | none => return .source (← readSource (← IO.getStdin))
  | some path =>
    try
      let handle ← IO.FS.Handle.mk path .read
      return .source (← readSource (IO.FS.Stream.ofHandle handle))
    catch error => return .failed path (systemText error)

end EpcisDigest.CommandLine

open EpcisDigest EpcisDigest.CommandLine

def main (arguments : List String) : IO UInt32 := do
  let report ←
    match Invocation.ofArguments? arguments with
    | none => pure Report.usage
    | some invocation => do pure (invocation.run (← openInput invocation.input))
  (← IO.getStdout).putStr report.output
  if let some error := report.error then
    (← IO.getStderr).putStrLn error
  return UInt32.ofNat report.code
