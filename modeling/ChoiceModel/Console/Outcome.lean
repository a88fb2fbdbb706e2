import ChoiceModel.Console.Command
import ChoiceModel.Console.ErrorRecord
import ChoiceModel.Console.Report
import ChoiceModel.Model.File
import ChoiceModel.Store.Scalars

/-! What comes of a command: what it prints, and the error that it ends with. -/

namespace ChoiceModel.Console

open Expression Model Store

abbrev Files := String → Except FileFault String

def readModel (files : Files) (file : String) : Except Model.Error Model :=
  match files file with
  | .ok text => Model.parse text
  | .error fault => .error (.file fault)

def compileAgainst (scalars : List (String × Float)) (text : String) :
    Except Model.Error (Expression × Scalars) :=
  match Expression.ofText? text (Scalars.ofList scalars) with
  | (.ok e, t) => .ok (e, t)
  | (.error cause, _) => .error (.compile text cause)

def assignedName? (e : Expression) (t : Scalars) : Option String := e.target?.bind t.name?

def evalOutput (coloured : Bool) (text : String) (scalars : List (String × Float))
    (trace json : Bool) : Except Model.Error String := do
  let (e, t) ← compileAgainst scalars text
  match e.solveSeen .lines t () #[] with
  | (.error cause, _, _) => throw (.eval text cause)
  | (.ok x, t, lines) =>
    let lines := if trace then lines.toList else []
    if json then return valueDocument text (assignedName? e t) x lines
    else
      return (if trace then traceReport coloured lines else "")
        ++ valueReport coloured (assignedName? e t) x

def compileOutput (coloured : Bool) (text : String) (scalars : List (String × Float))
    (json : Bool) : Except Model.Error String := do
  let (e, t) ← compileAgainst scalars text
  let p := e.program?.getD {}
  if json then return programDocument text (assignedName? e t) p
  else return programReport coloured text (assignedName? e t) p

def runOutput (coloured : Bool) (files : Files) (file : String) (ctx : Context Unit)
    (trace json : Bool) : Except Model.Error String := do
  let m ← readModel files file
  let p ← m.prepare
  match p.runSeen .lines ctx #[] with
  | (.error e, _, _) => throw e
  | (.ok results, _, lines) =>
    if json then return resultsDocument results
    else return runReport coloured file ctx (if trace then some lines.toList else none) results

def checkFile (files : Files) (file : String) : Except (List Model.Error) Model :=
  match readModel files file with
  | .error e => .error [e]
  | .ok m => if m.errors.isEmpty then .ok m else .error m.errors

def checkLines (coloured : Bool) (file : String) (r : Except (List Model.Error) Model) :
    List String :=
  checkHeading coloured file :: match r with
    | .ok m => [soundLine coloured m]
    | .error es => es.map (problemLine coloured)

structure Outcome where
  status : Nat
  output : String := ""
  error : Option Model.Error := none

/-- The outcome of a command that prints nothing if it fails. -/
def Outcome.ofResult : Except Model.Error String → Outcome
  | .ok output => { status := 0, output }
  | .error e => { status := 1, error := some e }

/-- Every file is checked; that some have failed is the error at the end. -/
def checkOutcome (coloured : Bool) (files : Files) (names : List String) : Outcome :=
  let checks := names.map fun file => (file, checkFile files file)
  let output := unlines (checks.flatMap fun (file, r) => checkLines coloured file r)
  let failed := checks.countP fun (_, r) => !r.isOk
  if failed == 0 then { status := 0, output }
  else { status := 1, output, error := some (.invalid (.failedFiles failed names.length)) }

def Command.outcome (coloured : Bool) (files : Files) : Command → Outcome
  | eval text scalars trace json => .ofResult (evalOutput coloured text scalars trace json)
  | compile text scalars json => .ofResult (compileOutput coloured text scalars json)
  | run file origin destination household trace json =>
    .ofResult (runOutput coloured files file { origin, destination, household } trace json)
  | check names => checkOutcome coloured files names

def version : String := "uec 1.0.0\n"

def help : String := unlines [
  "Compile and evaluate utility expressions.",
  "",
  "Usage: uec [OPTIONS] <COMMAND>",
  "",
  "Commands:",
  "  eval <EXPRESSION>     Evaluate one expression",
  "  compile <EXPRESSION>  Show the instruction listing of an expression",
  "  run <FILE>            Evaluate the formulas and utilities of a model file",
  "  check <FILES>...      Compile every formula and utility row of model files",
  "",
  "Options:",
  "  -s, --set <NAME=VALUE>  Scalar value available to the expression (eval, compile; repeatable)",
  "  -t, --trace             Print every evaluation step (eval, run)",
  "      --json              Print the result as JSON (eval, compile, run)",
  "      --orig <ORIG>       Origin zone, from 1 (run) [env: UEC_ORIG]",
  "      --dest <DEST>       Destination zone, from 1 (run) [env: UEC_DEST]",
  "      --household <HH>    Household row, from 0 (run) [env: UEC_HOUSEHOLD]",
  "  -v, --verbose           Accepted by every command",
  "  -h, --help              Print help",
  "  -V, --version           Print version"]

/-- The outcome of a request; one that is not understood has the status 2. -/
def Request.outcome (env : Environment) (files : Files) : Request → Outcome
  | command c => c.outcome env.coloured files
  | help => { status := 0, output := Console.help }
  | version => { status := 0, output := Console.version }
  | refused => { status := 2 }

end ChoiceModel.Console
