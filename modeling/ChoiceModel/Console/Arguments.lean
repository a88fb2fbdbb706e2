import ChoiceModel.Console.Assignment
import ChoiceModel.Console.Flag

/-! Command lines: the flags of a command, the words that it takes, and what both ask for. -/

namespace ChoiceModel.Console

inductive Room where
  | commands (names : List String)
  /-- An expression, which may begin with a hyphen. -/
  | expression
  | file
  | files
  | none
deriving DecidableEq

/-- The room that is left after a word, if the word has a place. A file has a name. -/
def Room.after? : Room → String → Option Room
  | .expression, _ => some .none
  | .file, text => if text.isEmpty then Option.none else some .none
  | .files, text => if text.isEmpty then Option.none else some .files
  | .commands _, _ | .none, _ => Option.none

def Room.isCommand : Room → String → Bool
  | .commands names, text => names.contains text
  | _, _ => false

def readWords (room : Room) : List String → List Item
  | [] => []
  | arg :: rest =>
    match room.after? arg with
    | some room => .word arg :: readWords room rest
    | none => [.refused]

/-- What an argument gives that names flags; `none` if it is to be taken as it stands. Where an
expression may come, an argument with a name that no flag has is one. -/
def readFlags? (flags : List Flag) (room : Room) (arg : List Char) :
    Option (List Item × Option Flag) :=
  match Shape.of arg with
  | .separator | .plain => none
  | .long name value =>
    match flags.find? fun f => f.long.toList == name with
    | some flag => some (readLong flag value)
    | none => if room == .expression then none else some ([.refused], none)
  | .short names =>
    let known := names.all fun c => flags.any fun f => f.short? == some c
    if room == .expression && !known then none else some (readShort flags names)

/-- Reads the arguments of a command with a flag that may await its value. -/
def readArguments (flags : List Flag) (room : Room) (awaited : Option Flag) :
    List String → List Item
  | [] => if awaited.isSome then [.refused] else []
  | arg :: rest =>
    if room.isCommand arg then [.command arg rest]
    else if Shape.of arg.toList == .separator then
      if awaited.isSome then [.refused] else readWords room rest
    else
      match readFlags? flags room arg.toList, awaited with
      | some (items, awaited'), none => items ++ readArguments flags room awaited' rest
      | some _, some _ => [.refused]
      | none, some flag => .value flag arg :: readArguments flags room none rest
      | none, none =>
        match room.after? arg with
        | some room => .word arg :: readArguments flags room none rest
        | none => [.refused]

/-- A number of a zone or a household, below 2^64; a plus may stand in front. -/
def index? (text : String) : Option Nat :=
  let digits := match text.toList with
    | '+' :: rest => rest
    | cs => cs
  if digits.isEmpty || !digits.all Char.isDigit then none
  else
    let n := Decimal.digitsValue digits
    if n < UInt64.size then some n else none

structure Options where
  words : List String := []
  scalars : List (String × Float) := []
  origin : Option Nat := none
  destination : Option Nat := none
  household : Option Nat := none
  verbose : Bool := false
  trace : Bool := false
  json : Bool := false

def once? (old : Option Nat) (text : String) : Option (Option Nat) :=
  if old.isSome then none else (index? text).map some

def Options.add? (o : Options) : Item → Option Options
  | .word text => some { o with words := o.words ++ [text] }
  | .value .set text =>
    match assignment text with
    | .ok pair => some { o with scalars := o.scalars ++ [pair] }
    | .error _ => none
  | .value .origin text => (once? o.origin text).map fun origin => { o with origin }
  | .value .destination text =>
    (once? o.destination text).map fun destination => { o with destination }
  | .value .household text => (once? o.household text).map fun household => { o with household }
  | .on .verbose => if o.verbose then none else some { o with verbose := true }
  | .on .trace => if o.trace then none else some { o with trace := true }
  | .on .json => if o.json then none else some { o with json := true }
  | _ => none

inductive Asked where
  | options (o : Options)
  | command (name : String) (rest : List String)
  | help
  | version
  | refused

/-- Takes items one after the other, up to a request for help, a command, or one that is refused. -/
def collect (o : Options) : List Item → Asked
  | [] => .options o
  | .on .help :: _ => .help
  | .on .version :: _ => .version
  | .command name rest :: _ => .command name rest
  | item :: rest =>
    match o.add? item with
    | some o => collect o rest
    | none => .refused

end ChoiceModel.Console
