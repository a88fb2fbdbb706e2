/-! What can be wrong with a model apart from its expressions, with the message that each cause is
reported by. -/

namespace ChoiceModel.Model

/-- What a name that is written in a model file belongs to. -/
inductive NameKind where
  | formula
  | utility

def NameKind.word : NameKind → String
  | formula => "Formula"
  | utility => "Utility"

inductive Defect where
  | columnLength (name : String) (rows expected : Nat)
  | table (part : String) (defect : Defect)
  | matrixRow (name : String) (row count expected : Nat)
  | duplicateMatrix (name : String)
  | invalidName (kind : NameKind) (name : String)
  | duplicateUtility (name : String)
  | noAlternatives (utility : String)
  | assigningFilter (utility : String) (row : Nat)
  | idleRow (utility : String) (row : Nat)
  | coefficientCount (utility : String) (row count expected : Nat)
  | outputSize (utility : String) (alternatives size : Nat)
  | noAlternative (utility : String) (alternative : Nat)
  | failedFiles (failed total : Nat)

def Defect.message : Defect → String
  | columnLength name rows expected => s!"Column '{name}' has {rows} rows, expected {expected} rows"
  | table part defect => s!"Table '{part}': " ++ defect.message
  | matrixRow name row count expected =>
    s!"Matrix '{name}' row {row} has {count} values, expected {expected}"
  | duplicateMatrix name => s!"Matrix name '{name}' is defined more than once"
  | invalidName kind name =>
    kind.word ++ s!" name '{name}' must start with a letter and contain no operators or spaces"
  | duplicateUtility name => s!"Utility '{name}' is defined more than once"
  | noAlternatives utility => s!"Utility '{utility}' has no alternatives"
  | assigningFilter utility row => s!"Utility '{utility}' row {row}: a filter cannot assign"
  | idleRow utility row => s!"Utility '{utility}' row {row} neither assigns nor has coefficients"
  | coefficientCount utility row count expected =>
    s!"Utility '{utility}' row {row} has {count} coefficients, expected {expected}"
  | outputSize utility alternatives size =>
    s!"Utility '{utility}' has {alternatives} alternatives, output holds {size}"
  | noAlternative utility alternative => s!"Utility '{utility}' has no alternative {alternative}"
  | failedFiles failed total => s!"{failed} of {total} model file(s) failed to check"

end ChoiceModel.Model
