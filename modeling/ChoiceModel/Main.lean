import ChoiceModel.Console.Outcome

/-! The program: reads its arguments and the files that they name, prints what comes of them. -/

namespace ChoiceModel

open Console Model

def systemFault : IO.Error → SystemFault
  | .noFileOrDirectory .. => .notFound
  | .permissionDenied .. => .denied
  | .inappropriateType _ code _ => if code == 20 then .notDirectory else .isDirectory
  | .invalidArgument _ code message =>
    if code == 36 then .nameTooLong else .other code.toNat message
  | .otherError code message => .other code.toNat message
  | e => .other 5 e.toString

def readText (file : String) : IO (Except FileFault String) := do
  try
    let bytes ← IO.FS.readBinFile file
    match String.fromUTF8? bytes with
    | some text => return .ok text
    | none => return .error .notText
  catch e => return .error (.system (systemFault e))

def environment : IO Environment := do
  let names := ["UEC_ORIG", "UEC_DEST", "UEC_HOUSEHOLD", "NO_COLOR", "CLICOLOR", "CLICOLOR_FORCE"]
  let settings ← names.filterMapM fun name => do
    return (← IO.getEnv name).map fun value => (name, value)
  return { settings, terminal := ← (← IO.getStdout).isTty }

/-- Runs the program with the arguments of its command line; gives its exit status. -/
def start (args : List String) : IO UInt32 := do
  let env ← environment
  let request := Request.ofArguments env args
  let texts ← request.files.mapM fun file => do return (file, ← readText file)
  let files : Files := fun file => (texts.lookup file).getD (.error (.system .notFound))
  let outcome := request.outcome env files
  IO.print outcome.output
  match outcome.error with
  | some e => IO.eprintln ("Error: " ++ e.record.write)
  | none => if outcome.status == 2 then IO.eprintln "error: see uec --help for the arguments"
  return UInt32.ofNat outcome.status

end ChoiceModel

def main (args : List String) : IO UInt32 := ChoiceModel.start args
