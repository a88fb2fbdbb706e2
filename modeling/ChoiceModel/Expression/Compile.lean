import ChoiceModel.Expression.Balance
import ChoiceModel.Expression.Lexeme
import ChoiceModel.Expression.Program
import ChoiceModel.Expression.Subscript
import ChoiceModel.Store.Access

/-! Compilation of infix text to a program in one pass over the lexemes. Markers hold what is still
open; an operator is emitted as soon as one that binds no tighter, a comma or a closing parenthesis
ends its right operand. -/

namespace ChoiceModel.Expression

open Text Store

/-- What has been opened and not yet finished. -/
inductive Marker where
  /-- A `(`, with the number of operands that were pending before it. -/
  | group (depth : Nat)
  | comma
  | operator (op : Operator)
  | call (op : Opcode) (position : Nat)
deriving DecidableEq

/-- The program so far, and where each of its pending sub-expressions starts, the last one first. -/
structure Output where
  program : Program := {}
  operands : List Nat := []

namespace Output

def push (out : Output) (i : Instruction) (name : Option String) : Output where
  program := out.program.push ⟨i, out.program.size, name⟩
  operands := out.program.size :: out.operands

def isMatrixAt (out : Output) (i : Nat) : Bool :=
  match out.program.instruction? i with
  | some (.matrix _) => true
  | _ => false

/-- Whether an operand among those that start at the given places, the last of which ends before
`next`, is a matrix group alone. -/
def hasBareMatrix (out : Output) (next : Nat) : List Nat → Bool
  | [] => false
  | start :: rest => (start + 1 == next && out.isMatrixAt start) || out.hasBareMatrix start rest

def isLookup (out : Output) : List Nat → Bool
  | [subscript, base] => subscript == base + 1 && out.isMatrixAt base
  | _ => false

def emit (out : Output) (op : Opcode) (position : Nat) : Except SyntaxError Output :=
  let taken := out.operands.take op.operands
  let kept := out.operands.drop op.operands
  if taken.length < op.operands then .error (.malformed (.missingOperand op) position)
  else if op = .lookup then
    if out.isLookup taken then .ok (append taken kept)
    else .error (.malformed .noMatrix position)
  else if out.hasBareMatrix out.program.size taken then .error (.malformed .bareMatrix position)
  else .ok (append taken kept)
where
  append (taken kept : List Nat) : Output :=
    let first := taken.getLast?.getD 0
    { program := out.program.push ⟨.apply op, first, none⟩, operands := first :: kept }

end Output

/-- Emits the operators on top of the markers that bind at least as tightly as `level`. -/
def settle (level position : Nat) :
    List Marker → Output → Except SyntaxError (List Marker × Output)
  | .operator op :: markers, out =>
    if level ≤ op.precedence then
      match out.emit (.operator op) position with
      | .ok out => settle level position markers out
      | .error e => .error e
    else .ok (.operator op :: markers, out)
  | markers, out => .ok (markers, out)

structure Builder where
  markers : List Marker := []
  output : Output := {}

namespace Builder

def operator (b : Builder) (op : Operator) (position : Nat) : Except SyntaxError Builder :=
  match settle op.precedence position b.markers b.output with
  | .ok (markers, out) => .ok ⟨.operator op :: markers, out⟩
  | .error e => .error e

def comma (b : Builder) (position : Nat) : Except SyntaxError Builder :=
  match settle 0 position b.markers b.output with
  | .ok (.group depth :: markers, out) => .ok ⟨.comma :: .group depth :: markers, out⟩
  | .ok (.comma :: markers, out) => .ok ⟨.comma :: .comma :: markers, out⟩
  | .ok _ => .error (.malformed .unexpectedComma position)
  | .error e => .error e

/-- Closes the innermost group. The arguments of a call are counted by the operands that the group
has produced and by its commas, which have to agree. -/
def close (b : Builder) (position : Nat) : Except SyntaxError Builder :=
  match settle 0 position b.markers b.output with
  | .error e => .error e
  | .ok (markers, out) =>
    let commas := (markers.takeWhile (· == .comma)).length
    match markers.dropWhile (· == .comma) with
    | .group depth :: .call op start :: markers =>
      let expected := op.operands
      if out.operands.length - depth == expected && commas + 1 == expected then
        match out.emit op position with
        | .ok out => .ok ⟨markers, out⟩
        | .error e => .error e
      else .error (.malformed (.argumentCount op) start)
    | .group depth :: markers =>
      match commas, out.operands.length - depth with
      | 0, 1 => .ok ⟨markers, out⟩
      | 0, 0 => .error (.malformed .emptyParentheses position)
      | 0, _ => .error (.malformed .missingOperator position)
      | _, _ => .error (.malformed .unexpectedComma position)
    | _ => .error (.unbalanced position)

def symbol (b : Builder) (s : Symbol) (position : Nat) : Except SyntaxError Builder :=
  match s with
  | .openParen => .ok { b with markers := .group b.output.operands.length :: b.markers }
  | .comma => b.comma position
  | .closeParen => b.close position
  | .assign => .error (.malformed .unexpectedAssign position)
  | .bang => .error (.malformed .loneBang position)
  | .operator op => b.operator op position

def operand (b : Builder) (i : Instruction) (name : Option String) : Builder :=
  { b with output := b.output.push i name }

def awaitsMatrix (b : Builder) : Bool :=
  match b.markers with
  | _ :: .call .lookup _ :: _ => true
  | _ => false

/-- The program at the end of the text: every operator still open is emitted, and one operand has
to be left. -/
def finish (position : Nat) : List Marker → Output → Except SyntaxError Program
  | .operator op :: markers, out =>
    match out.emit (.operator op) position with
    | .ok out => finish position markers out
    | .error e => .error e
  | .group _ :: _, _ => .error (.unbalanced position)
  | .comma :: _, _ => .error (.malformed .unexpectedComma position)
  | .call op start :: _, _ => .error (.malformed (.noArgumentList op) start)
  | [], out =>
    match out.operands with
    | [] => .error .empty
    | [_] => .ok out.program
    | _ => .error (.malformed .missingOperator position)

end Builder

def Token.isOpenParen : Token → Bool
  | .symbol .openParen => true
  | _ => false

variable {σ : Type} [Resolver σ]

/-- A name: a built-in function, which a `(` has to follow, or a variable, which none may
follow. The first argument of a lookup is resolved as a matrix group. -/
def nameStep (previous next : Option Token) (name : String) (position : Nat) (b : Builder) (s : σ) :
    Except SyntaxError Builder × σ :=
  match Opcode.ofName? name with
  | some op =>
    if next.any Token.isOpenParen then
      (.ok { b with markers := .call op position :: b.markers }, s)
    else (.error (.malformed (.uncalledFunction name) position), s)
  | none =>
    if next.any Token.isOpenParen then (.error (.unknownFunction name), s)
    else if previous.any Token.isOpenParen && b.awaitsMatrix then
      match Resolver.resolveArray name s with
      | (some i, s) => (.ok (b.operand (.matrix i) (some name)), s)
      | (none, s) => (.error (.unknownVariable name position), s)
    else
      match Resolver.resolveRead name s with
      | (some i, s) => (.ok (b.operand (.load i) (some name)), s)
      | (none, s) => (.error (.unknownVariable name position), s)

def step (previous next : Option Token) (l : Lexeme) (b : Builder) (s : σ) :
    Except SyntaxError Builder × σ :=
  match l.token with
  | .number x => (.ok (b.operand (.literal x) none), s)
  | .name name => nameStep previous next name l.position b s
  | .symbol sym => (b.symbol sym l.position, s)

/-- Compiles the lexemes that follow `previous`, in a text that ends at `stop`. -/
def run (stop : Nat) (previous : Option Token) :
    List Lexeme → Builder → σ → Except SyntaxError Program × σ
  | [], b, s => (Builder.finish stop b.markers b.output, s)
  | l :: rest, b, s =>
    match step previous (rest.head?.map Lexeme.token) l b s with
    | (.ok b, s) => run stop (some l.token) rest b s
    | (.error e, s) => (.error e, s)

/-- The characters that make a `=` beside them part of a comparison. -/
def isRelational (c : Char) : Bool := c == '=' || c == '!' || c == '<' || c == '>'

/-- Splits a text at its first `=` that is no part of a comparison; `previous` is the character
before the text. -/
def splitAssignment (previous : Option Char) : List Char → Option (List Char × List Char)
  | [] => none
  | c :: rest =>
    if c == '=' && !previous.any isRelational && !rest.head?.any isRelational then some ([], rest)
    else (splitAssignment (some c) rest).map fun (target, value) => (c :: target, value)

def checkTarget (name : String) : Except SyntaxError Unit :=
  let cs := name.toList
  if !cs.head?.any isNameStart || cs.any fun c => isDelimiter c || isBracket c then
    .error (.malformed (.invalidTarget name) 0)
  else if (Opcode.ofName? name).isSome then .error (.unassignable name)
  else .ok ()

structure Compiled where
  program : Program
  target : Option Nat

/-- The lexemes of the value of an expression, which must not be blank. -/
def valueLexemes (cs : List Char) : Except SyntaxError Scan :=
  if cs.all isWhite then .error .empty
  else
    match expandSubscripts cs with
    | .error e => .error e
    | .ok expanded =>
      match checkBalance expanded with
      | .error e => .error e
      | .ok () => scan expanded

def compileValue (cs : List Char) (s : σ) : Except SyntaxError Program × σ :=
  match valueLexemes cs with
  | .error e => (.error e, s)
  | .ok lexed => run lexed.stop none lexed.lexemes {} s

/-- Compiles `text`, a value or an assignment. The target of an assignment is resolved last, once
the value has compiled. -/
def compile (text : String) (s : σ) : Except SyntaxError Compiled × σ :=
  match splitAssignment none text.toList with
  | none =>
    match compileValue text.toList s with
    | (.ok program, s) => (.ok ⟨program, none⟩, s)
    | (.error e, s) => (.error e, s)
  | some (target, value) =>
    match compileValue value s with
    | (.error e, s) => (.error e, s)
    | (.ok program, s) =>
      let name := String.ofList (trim target)
      match checkTarget name with
      | .error e => (.error e, s)
      | .ok () =>
        match Resolver.resolveAssign name s with
        | (some i, s) => (.ok ⟨program, some i⟩, s)
        | (none, s) => (.error (.unassignable name), s)

end ChoiceModel.Expression
