import ChoiceModel.Model.Document
import ChoiceModel.Model.Valid
import ChoiceModel.Yaml.Value

/-! Model files: YAML documents that hold a valid model. -/

namespace ChoiceModel.Model

instance : Document Yaml.Value Yaml.Reading where
  fields _ v := v.pairs
  pairs := Yaml.Value.pairs
  items := Yaml.Value.items
  string := Yaml.Value.string
  number := Yaml.Value.number
  textOrNumber := Yaml.Value.textOrNumber
  choice := Yaml.Value.choice
  nonNull := Yaml.Value.nonNull

def parse (text : String) : Except Error Model :=
  match Yaml.read? Document.model text with
  | none => .error .document
  | some m =>
    match m.check with
    | .ok () => .ok m
    | .error defect => .error (.invalid defect)

end ChoiceModel.Model
