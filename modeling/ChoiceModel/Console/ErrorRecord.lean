import ChoiceModel.Console.Record
import ChoiceModel.Model.Error
import ChoiceModel.Store.Binding

/-! Errors and contexts in record notation. -/

namespace ChoiceModel

open Console

namespace Expression

def SyntaxError.record : SyntaxError → Record
  | empty => .word "EmptyExpression"
  | unbalanced position => .fields "UnbalancedParentheses" [("position", .count position)]
  | unknownVariable name position =>
    .fields "UnknownVariable" [("name", .text name), ("position", .count position)]
  | unknownFunction name => .fields "UnknownFunction" [("name", .text name)]
  | unassignable name => .fields "AssignmentTargetUnresolvable" [("name", .text name)]
  | malformed fault position =>
    .fields "Malformed" [("message", .text fault.message), ("position", .count position)]

def EvalError.record : EvalError → Record
  | notCompiled text => .fields "NotCompiled" [("text", .text text)]
  | invalid index fault =>
    .fields "InvalidInstruction" [("index", .count index), ("detail", .text fault.message)]
  | underflow position depth =>
    .fields "AuxStackUnderflow" [("position", .number position), ("depth", .count depth)]
  | overflow capacity => .fields "AuxStackOverflow" [("capacity", .count capacity)]
  | subscript name s =>
    .fields "SubscriptOutOfRange" [("variable", .text name), ("subscript", .number s)]
  | unbound index => .fields "UnboundVariable" [("index", .count index)]
  | notSubscriptable name => .fields "NotSubscriptable" [("variable", .text name)]
  | cell name fault =>
    .fields "CellOutOfRange" [("variable", .text name), ("detail", .text fault.message)]
  | missing name need =>
    .fields "MissingContext" [("variable", .text name), ("what", .text need.message)]
  | readOnly name => .fields "ReadOnly" [("variable", .text name)]

end Expression

namespace Model

def FileFault.record : FileFault → Record
  | .notText =>
    .fields "Error" [("kind", .word "InvalidData"), ("message", .text FileFault.notText.message)]
  | .system fault =>
    .fields "Os" [("code", .count fault.code), ("kind", .word fault.kind),
      ("message", .text fault.message)]

def Error.record : Error → Record
  | file fault => .wrapped "Io" fault.record
  | document => .word "Yaml"
  | compile text cause =>
    .fields "Syntax" [("expression", .text text), ("source", cause.record)]
  | eval text cause => .fields "Eval" [("expression", .text text), ("source", cause.record)]
  | solve utility alternative row text cause =>
    .fields "Solve" [("utility", .text utility), ("alternative", .text alternative),
      ("row", .count row), ("expression", .text text), ("source", cause.record)]
  | circular formula => .wrapped "CircularDependency" (.text (circularity formula))
  | invalid defect => .wrapped "Validation" (.text defect.message)

end Model

namespace Store

/-- A context; of the decision-maker only whether there is one. -/
def Context.record {ο : Type} (ctx : Context ο) : Record :=
  .fields "EvalContext" [("orig", .option .count ctx.origin),
    ("dest", .option .count ctx.destination), ("household", .option .count ctx.household),
    ("alternative", .count ctx.alternative), ("object", .bool ctx.decisionMaker.isSome)]

end Store

end ChoiceModel
