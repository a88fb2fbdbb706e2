import ChoiceModel.Expression.Alphabet
import ChoiceModel.Model.Basic
import ChoiceModel.Model.Error

/-! What has to hold of a model before anything in it is compiled. -/

namespace ChoiceModel.Model

open Expression (isDelimiter isBracket)

/-- Checks columns against the number of rows of those before them. -/
def checkColumns : Option Nat → List (String × Array Float) → Except Defect (Option Nat)
  | rows, [] => .ok rows
  | none, (_, values) :: rest => checkColumns (some values.size) rest
  | some rows, (name, values) :: rest =>
    if rows == values.size then checkColumns (some rows) rest
    else .error (.columnLength name values.size rows)

def Table.rowCount (t : Table) : Except Defect Nat :=
  (checkColumns none t.columns).map fun rows => rows.getD 0

def checkTable (part : String) : Option Table → Except Defect Unit
  | none => .ok ()
  | some t =>
    match t.rowCount with
    | .ok _ => .ok ()
    | .error defect => .error (.table part defect)

/-- Accepts a name that starts with a letter and has no character of another lexeme. -/
def checkName (kind : NameKind) (name : String) : Except Defect Unit :=
  let cs := name.toList
  if !cs.head?.any Char.isAlpha || cs.any fun c => isDelimiter c || isBracket c then
    .error (.invalidName kind name)
  else .ok ()

def checkUtilities (seen : List String) : List String → Except Defect Unit
  | [] => .ok ()
  | name :: rest => do
    checkName .utility name
    if seen.contains name then .error (.duplicateUtility name)
    else checkUtilities (name :: seen) rest

/-- Checks the tables, the names of formulas and the names of utilities, in this order. -/
def check (m : Model) : Except Defect Unit := do
  checkTable "zones" m.zones
  checkTable "households" m.households
  checkTable "alternatives" m.alternatives
  m.formulas.forM fun formula => checkName .formula formula.1
  checkUtilities [] (m.utilities.map UtilitySpec.name)

end ChoiceModel.Model
