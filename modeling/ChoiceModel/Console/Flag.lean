/-! Flags of the command line, and how an argument names them. -/

namespace ChoiceModel.Console

inductive Flag where
  | help
  | version
  | verbose
  | trace
  | json
  | set
  | origin
  | destination
  | household
deriving DecidableEq

namespace Flag

def long : Flag → String
  | help => "help"
  | version => "version"
  | verbose => "verbose"
  | trace => "trace"
  | json => "json"
  | set => "set"
  | origin => "orig"
  | destination => "dest"
  | household => "household"

def short? : Flag → Option Char
  | help => some 'h'
  | version => some 'V'
  | verbose => some 'v'
  | trace => some 't'
  | set => some 's'
  | json | origin | destination | household => none

def takesValue : Flag → Bool
  | set | origin | destination | household => true
  | help | version | verbose | trace | json => false

end Flag

/-- How an argument looks: two hyphens alone, a long name with or without a value, short names in
a row, or anything else. -/
inductive Shape where
  | separator
  | long (name : List Char) (value : Option (List Char))
  | short (names : List Char)
  | plain
deriving DecidableEq

def Shape.of (arg : List Char) : Shape :=
  match arg with
  | ['-', '-'] => .separator
  | '-' :: '-' :: rest =>
    match rest.span (· != '=') with
    | (name, []) => .long name none
    | (name, _ :: value) => .long name (some value)
  | '-' :: c :: rest => .short (c :: rest)
  | _ => .plain

inductive Item where
  | on (flag : Flag)
  | value (flag : Flag) (text : String)
  | word (text : String)
  | command (name : String) (rest : List String)
  /-- Nothing that the command understands. -/
  | refused
deriving DecidableEq

/-- What a long name gives, and the flag whose value is in the next argument. -/
def readLong (flag : Flag) (value : Option (List Char)) : List Item × Option Flag :=
  match flag.takesValue, value with
  | true, some text => ([.value flag (String.ofList text)], none)
  | true, none => ([], some flag)
  | false, none => ([.on flag], none)
  | false, some _ => ([.refused], none)

/-- What short names in a row give, and the flag whose value is in the next argument. What follows
the name of a flag with a value is that value, with or without a `=` in front. -/
def readShort (flags : List Flag) : List Char → List Item × Option Flag
  | [] => ([], none)
  | c :: rest =>
    match flags.find? fun f => f.short? == some c with
    | none => ([.refused], none)
    | some f =>
      match f.takesValue, rest with
      | false, rest =>
        let (items, awaited) := readShort flags rest
        (.on f :: items, awaited)
      | true, [] => ([], some f)
      | true, '=' :: text => ([.value f (String.ofList text)], none)
      | true, text => ([.value f (String.ofList text)], none)

end ChoiceModel.Console
