import ChoiceModel.Decimal.Arithmetic

/-! The operations of an expression: infix operators with their precedence, and built-in functions
with their argument counts. -/

namespace ChoiceModel.Expression

inductive Operator where
  | add | sub | mul | div | mod | pow
  | eq | ne | lt | le | gt | ge
deriving DecidableEq, Repr

/-- Built-in functions on numbers; `choose` is the conditional. -/
inductive Builtin where
  | max | min | ln | exp | abs | sign | int | sqrt | put | get | choose
deriving DecidableEq, Repr

namespace Operator

/-- How tightly an operator binds; operators of equal precedence associate to the left. -/
def precedence : Operator → Nat
  | eq | ne => 1
  | lt | gt | le | ge => 2
  | add | sub => 3
  | mul | div | mod => 4
  | pow => 5

def symbol : Operator → String
  | add => "+"
  | sub => "-"
  | mul => "*"
  | div => "/"
  | mod => "%"
  | pow => "^"
  | eq => "=="
  | ne => "!="
  | lt => "<"
  | le => "<="
  | gt => ">"
  | ge => ">="

def word : Operator → String
  | add => "add"
  | sub => "sub"
  | mul => "mul"
  | div => "div"
  | mod => "mod"
  | pow => "pow"
  | eq => "eq"
  | ne => "ne"
  | lt => "lt"
  | le => "le"
  | gt => "gt"
  | ge => "ge"

open Decimal in
/-- The value of an operation; a comparison that holds is 1 and one that fails is 0. -/
def eval : Operator → Float → Float → Float
  | add, a, b => a + b
  | sub, a, b => a - b
  | mul, a, b => a * b
  | div, a, b => a / b
  | mod, a, b => remainder a b
  | pow, a, b => a.pow b
  | eq, a, b => truth (a == b)
  | ne, a, b => truth (a != b)
  | lt, a, b => truth (a < b)
  | le, a, b => truth (a ≤ b)
  | gt, a, b => truth (a > b)
  | ge, a, b => truth (a ≥ b)

end Operator

/-- The operands that an operation takes; a lookup takes a matrix group and a subscript. -/
inductive Arity where
  | unary | binary | ternary | lookup
deriving DecidableEq, Repr

def Arity.operands : Arity → Nat
  | unary => 1
  | binary | lookup => 2
  | ternary => 3

namespace Builtin

def arity : Builtin → Arity
  | ln | exp | abs | sign | int | sqrt | put | get => .unary
  | max | min => .binary
  | choose => .ternary

def symbol : Builtin → String
  | max => "max"
  | min => "min"
  | ln => "ln"
  | exp => "exp"
  | abs => "abs"
  | sign => "sign"
  | int => "int"
  | sqrt => "sqrt"
  | put => "put"
  | get => "get"
  | choose => "if"

def all : List Builtin := [ln, exp, abs, sign, int, max, min, choose, put, get, sqrt]

end Builtin

/-- An operation: an infix operator, a call of a function, or the lookup of a matrix by its number
in a group. -/
inductive Opcode where
  | operator (op : Operator)
  | function (f : Builtin)
  | lookup
deriving DecidableEq, Repr

namespace Opcode

def arity : Opcode → Arity
  | operator _ => .binary
  | function f => f.arity
  | lookup => .lookup

def operands (op : Opcode) : Nat := op.arity.operands

def precedence? : Opcode → Option Nat
  | operator op => some op.precedence
  | function _ | lookup => none

def isCall (op : Opcode) : Bool := op.precedence?.isNone

def symbol : Opcode → String
  | operator op => op.symbol
  | function f => f.symbol
  | lookup => "array"

def word : Opcode → String
  | operator op => op.word
  | op => op.symbol

def calls : List Opcode := Builtin.all.map function ++ [lookup]

/-- The call with a reserved name, in any mix of ASCII cases. -/
def ofName? (name : String) : Option Opcode :=
  calls.find? fun op => op.symbol.toList == name.toList.map Char.toLower

end Opcode

end ChoiceModel.Expression
