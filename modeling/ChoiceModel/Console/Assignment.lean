import ChoiceModel.Decimal.Read
import ChoiceModel.Text.Blank

/-! Values for scalars, given as `name=value`. -/

namespace ChoiceModel.Console

inductive AssignmentError where
  | noSign (text : String)
  | noName (text : String)
  | noNumber (name : String) (fault : Decimal.Fault)

def AssignmentError.message : AssignmentError → String
  | noSign text => s!"expected name=value, got '{text}'"
  | noName text => s!"missing variable name in '{text}'"
  | noNumber name fault => s!"invalid number for '{name}': " ++ fault.message

/-- The name in front of the first `=` and the number behind it, without the blanks around them. -/
def assignment (text : String) : Except AssignmentError (String × Float) :=
  let (name, rest) := text.toList.span (· != '=')
  let name := String.ofList (Text.trim name)
  if rest.isEmpty then .error (.noSign text)
  else if name.isEmpty then .error (.noName text)
  else
    match Decimal.read (Text.trim (rest.drop 1)) with
    | .ok x => .ok (name, x)
    | .error fault => .error (.noNumber name fault)

end ChoiceModel.Console
