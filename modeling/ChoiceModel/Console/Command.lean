import ChoiceModel.Console.Arguments
import ChoiceModel.Console.Style

/-! The commands of the program. -/

namespace ChoiceModel.Console

inductive Command where
  | eval (text : String) (scalars : List (String × Float)) (trace json : Bool)
  | compile (text : String) (scalars : List (String × Float)) (json : Bool)
  | run (file : String) (origin destination household : Option Nat) (trace json : Bool)
  | check (files : List String)

def Command.files : Command → List String
  | eval .. | compile .. => []
  | run file .. => [file]
  | check files => files

inductive Request where
  | command (c : Command)
  | help
  | version
  | refused

def Request.files : Request → List String
  | command c => c.files
  | help | version | refused => []

inductive Verb where
  | eval
  | compile
  | run
  | check
deriving DecidableEq

namespace Verb

def all : List Verb := [eval, compile, run, check]

def name : Verb → String
  | eval => "eval"
  | compile => "compile"
  | run => "run"
  | check => "check"

def ofName? (name : String) : Option Verb := all.find? fun v => v.name == name

def flags : Verb → List Flag
  | eval => [.help, .verbose, .set, .trace, .json]
  | compile => [.help, .verbose, .set, .json]
  | run => [.help, .verbose, .origin, .destination, .household, .trace, .json]
  | check => [.help, .verbose]

def room : Verb → Room
  | eval | compile => .expression
  | run => .file
  | check => .files

end Verb

/-- A number from the command line, or else from a variable of the environment. -/
def givenOr (env : Environment) (name : String) : Option Nat → Option (Option Nat)
  | some n => some (some n)
  | none =>
    match env.get? name with
    | some text => (index? text).map some
    | none => some none

def Options.command? (env : Environment) (o : Options) (v : Verb) : Option Command :=
  match v, o.words with
  | .eval, [text] => some (.eval text o.scalars o.trace o.json)
  | .compile, [text] => some (.compile text o.scalars o.json)
  | .run, [file] => do
    let origin ← givenOr env "UEC_ORIG" o.origin
    let destination ← givenOr env "UEC_DEST" o.destination
    let household ← givenOr env "UEC_HOUSEHOLD" o.household
    return .run file origin destination household o.trace o.json
  | .check, file :: files => some (.check (file :: files))
  | _, _ => none

def Verb.request (env : Environment) (v : Verb) (args : List String) : Request :=
  match collect {} (readArguments v.flags v.room none args) with
  | .options o =>
    match o.command? env v with
    | some c => .command c
    | none => .refused
  | .help => .help
  | .command .. | .version | .refused => .refused

def helpRequest : List String → Request
  | [] => .help
  | [name] => if name == "help" || (Verb.ofName? name).isSome then .help else .refused
  | _ => .refused

def Request.ofArguments (env : Environment) (args : List String) : Request :=
  let names := "help" :: Verb.all.map Verb.name
  match collect {} (readArguments [.help, .verbose, .version] (.commands names) none args) with
  | .command name rest =>
    match Verb.ofName? name with
    | some v => v.request env rest
    | none => helpRequest rest
  | .help => .help
  | .version => .version
  | .options _ | .refused => .refused

end ChoiceModel.Console
