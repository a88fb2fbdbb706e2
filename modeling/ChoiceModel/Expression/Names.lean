import ChoiceModel.Expression.Lexeme
import ChoiceModel.Expression.Subscript

/-! The lexemes of a text with subscripts, and the names that it reads. -/

namespace ChoiceModel.Expression

def tokenize (text : String) : Except SyntaxError Scan := do
  scan (← expandSubscripts text.toList)

/-- The name in a token that is not reserved for a call. -/
def Token.variable? : Token → Option String
  | .name s => if (Opcode.ofName? s).isNone then some s else none
  | _ => none

/-- Every name in a text that is not reserved, in order and with repetitions. -/
def variableNames (text : String) : Except SyntaxError (List String) := do
  return (← tokenize text).lexemes.filterMap fun l => l.token.variable?

end ChoiceModel.Expression
