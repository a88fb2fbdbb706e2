import ChoiceModel.Decimal.Layout
import ChoiceModel.Expression.Opcode

/-! What can be wrong with an expression, in its text and while it is evaluated, with the message
that each cause is reported by. -/

namespace ChoiceModel.Expression

inductive Fault where
  | unexpectedCharacter (c : Char)
  | invalidNumber (literal : String)
  /-- A `[` after a name without its `]`. -/
  | unmatchedBracket
  /-- A bracket that belongs to no subscript. -/
  | strayBracket
  | uncalledFunction (name : String)
  | noArgumentList (op : Opcode)
  | unexpectedComma
  | unexpectedAssign
  | loneBang
  | argumentCount (op : Opcode)
  | emptyParentheses
  | missingOperator
  | missingOperand (op : Opcode)
  | noMatrix
  | bareMatrix
  | invalidTarget (name : String)

def Fault.message : Fault → String
  | unexpectedCharacter c => s!"unexpected character '{c}'"
  | invalidNumber literal => s!"invalid number '{literal}'"
  | unmatchedBracket => "unmatched '['"
  | strayBracket => "subscript must follow a matrix name"
  | uncalledFunction name => s!"function '{name}' must be followed by '('"
  | noArgumentList op => "function '" ++ op.symbol ++ "' has no argument list"
  | unexpectedComma => "unexpected ','"
  | unexpectedAssign => "unexpected '='"
  | loneBang => "'!' must be followed by '='"
  | argumentCount op =>
    let n := op.operands
    op.symbol ++ s!"() takes {n} argument" ++ (if n == 1 then "" else "s")
  | emptyParentheses => "empty parentheses"
  | missingOperator => "missing operator"
  | missingOperand op => "operator '" ++ op.symbol ++ "' is missing an operand"
  | noMatrix => "array() needs a matrix name as its first argument"
  | bareMatrix => "a subscripted matrix must be read through array()"
  | invalidTarget name => s!"'{name}' is not a valid assignment target"

/-- Why a text does not compile; positions count bytes. -/
inductive SyntaxError where
  | empty
  | unbalanced (position : Nat)
  | unknownVariable (name : String) (position : Nat)
  | unknownFunction (name : String)
  | unassignable (name : String)
  | malformed (fault : Fault) (position : Nat)

def SyntaxError.message : SyntaxError → String
  | empty => "Syntax error: No Expression Present"
  | unbalanced position => s!"Syntax error: Unbalanced Parenthesis at position {position}"
  | unknownVariable name position =>
    s!"Syntax error: unknown variable '{name}' at position {position}"
  | unknownFunction name => s!"Syntax error: unknown function '{name}'"
  | unassignable name => s!"Syntax error: cannot assign to '{name}'"
  | malformed fault position => s!"Syntax error at position {position}: " ++ fault.message

inductive StreamFault where
  | emptyStream
  | pastEnd
  | strayMatrix
  | missingOperand
  | startAfterEnd
  | startMismatch
  | noMatrix
deriving DecidableEq

def StreamFault.message : StreamFault → String
  | emptyStream => "empty instruction stream"
  | pastEnd => "index past the end of the program"
  | strayMatrix => "matrix slot outside array()"
  | missingOperand => "operator is missing an operand"
  | startAfterEnd => "sub-expression starts after it ends"
  | startMismatch => "operand boundaries do not match the recorded start"
  | noMatrix => "array() without a matrix slot"

/-- A cell that a table or a matrix does not have. -/
inductive CellFault where
  | zoneZero
  | row (row rows : Nat)
  | cell (row column zones : Nat)
deriving DecidableEq

def CellFault.message : CellFault → String
  | zoneZero => "zone numbers start at 1"
  | row r rows => s!"row {r} is outside the table ({rows} rows)"
  | cell r c zones => s!"cell ({r}, {c}) is outside {zones} zones"

/-- What a variable needs from the place where it is evaluated. -/
inductive Need where
  | origin
  | destination
  | trip
  | household
  | alternative
  | decisionMaker
  | loopValue
deriving DecidableEq

def Need.message : Need → String
  | origin => "an origin zone"
  | destination => "a destination zone"
  | trip => "origin and destination zones"
  | household => "a household"
  | alternative => "an alternative"
  | decisionMaker => "a decision-maker"
  | loopValue => "a value for this loop variable"

/-- Why a compiled expression has no value. What is no number and the infinities are values. -/
inductive EvalError where
  | notCompiled (text : String)
  | invalid (index : Nat) (fault : StreamFault)
  | underflow (position : Float) (depth : Nat)
  | overflow (capacity : Nat)
  | subscript (name : String) (subscript : Float)
  | unbound (index : Nat)
  | notSubscriptable (name : String)
  | cell (name : String) (fault : CellFault)
  | missing (name : String) (need : Need)
  | readOnly (name : String)

def EvalError.message : EvalError → String
  | notCompiled text => s!"Expression '{text}' is not compiled"
  | invalid index fault => s!"Invalid instruction at index {index}: " ++ fault.message
  | underflow position depth =>
    "get(" ++ Decimal.plain.write position ++ s!") reads past the {depth} value(s) stored by put"
  | overflow capacity => s!"put overflows the value stack (capacity {capacity})"
  | subscript name s =>
    "Subscript " ++ Decimal.plain.write s ++ s!" out of range for '{name}'"
  | unbound index => s!"Variable index {index} is not bound in this table"
  | notSubscriptable name => s!"Variable '{name}' cannot be subscripted"
  | cell name fault => s!"'{name}': " ++ fault.message
  | missing name need => s!"'{name}' needs " ++ need.message ++ " in the evaluation context"
  | readOnly name => s!"Variable '{name}' is read-only"

end ChoiceModel.Expression
