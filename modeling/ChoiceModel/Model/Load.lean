import ChoiceModel.Model.Basic
import ChoiceModel.Model.Error
import ChoiceModel.Store.Variables

/-! The data sources that a model declares. -/

namespace ChoiceModel.Model

open Store

def loadTable : Option Table → Except Defect DataTable
  | none => .ok {}
  | some t => DataTable.ofColumns t.columns

def MatrixSpec.matrix (spec : MatrixSpec) : Except Defect Matrix :=
  Matrix.ofRows spec.name spec.values

/-- Goes on with the store of an addition that succeeded. -/
def kept (added : Except Defect Nat × Matrices) : Except Defect Matrices :=
  added.1.map fun _ => added.2

def loadMatrices (m : Model) : Except Defect Matrices := do
  let t ← m.matrices.foldlM (fun t spec => do
    kept (t.addMatrix (← spec.matrix) spec.orientation)) {}
  let t ← m.arrays.foldlM (fun t group => do
    let members ← group.members.mapM MatrixSpec.matrix
    kept (t.addArray group.name members.toArray group.orientation)) t
  m.collections.foldlM (fun t group => do
    let members ← group.members.mapM MatrixSpec.matrix
    kept (t.addCollection group.name members.toArray group.orientation)) t

def load {ο : Type} (m : Model) : Except Defect (Variables ο) := do
  let zones ← loadTable m.zones
  let households ← loadTable m.households
  let alternatives ← loadTable m.alternatives
  let matrices ← loadMatrices m
  return { scalars := .ofList m.scalars, zones, households, alternatives, matrices }

end ChoiceModel.Model
