import ChoiceModel.Expression.Error
import ChoiceModel.Model.Defect

/-! Why a model file, a compilation or a run fails. -/

namespace ChoiceModel.Model

open Expression (SyntaxError EvalError)

inductive SystemFault where
  | notFound
  | denied
  | notDirectory
  | isDirectory
  | nameTooLong
  | other (code : Nat) (message : String)
deriving DecidableEq

namespace SystemFault

def code : SystemFault → Nat
  | notFound => 2
  | denied => 13
  | notDirectory => 20
  | isDirectory => 21
  | nameTooLong => 36
  | other code _ => code

def kind : SystemFault → String
  | notFound => "NotFound"
  | denied => "PermissionDenied"
  | notDirectory => "NotADirectory"
  | isDirectory => "IsADirectory"
  | nameTooLong => "InvalidFilename"
  | other .. => "Uncategorized"

def message : SystemFault → String
  | notFound => "No such file or directory"
  | denied => "Permission denied"
  | notDirectory => "Not a directory"
  | isDirectory => "Is a directory"
  | nameTooLong => "File name too long"
  | other _ message => message

end SystemFault

inductive FileFault where
  | system (fault : SystemFault)
  | notText
deriving DecidableEq

def FileFault.message : FileFault → String
  | system fault => fault.message ++ " (os error " ++ toString fault.code ++ ")"
  | notText => "stream did not contain valid UTF-8"

inductive Error where
  | file (fault : FileFault)
  /-- A text that is no document, or a document that is no model. -/
  | document
  | compile (text : String) (cause : SyntaxError)
  | eval (text : String) (cause : EvalError)
  | solve (utility alternative : String) (row : Nat) (text : String) (cause : EvalError)
  | circular (formula : String)
  | invalid (defect : Defect)

def Error.circularity (formula : String) : String := s!"formula '{formula}' depends on itself"

def Error.message : Error → String
  | file fault => "IO error: " ++ fault.message
  | document => "YAML parsing error"
  | compile text cause => cause.message ++ s!" in '{text}'"
  | eval text cause => s!"Evaluation error in '{text}': " ++ cause.message
  | solve utility alternative row text cause =>
    s!"{utility}: alternative '{alternative}', row {row} ('{text}'): " ++ cause.message
  | circular formula => "Circular dependency detected: " ++ circularity formula
  | invalid defect => "Validation error: " ++ defect.message

end ChoiceModel.Model
