import ChoiceModel.Store.Matrices

/-! Models as they are written in a file: data, formulas and utilities. -/

namespace ChoiceModel

open Store (Orientation)

structure Model.Table where
  columns : List (String × Array Float) := []

structure Model.MatrixSpec where
  name : String
  orientation : Orientation := .byOrigin
  values : Array (Array Float)

structure Model.GroupSpec where
  name : String
  orientation : Orientation := .byOrigin
  members : List Model.MatrixSpec

/-- A row of a utility: an expression with one coefficient for each alternative, or an assignment
without coefficients. A row whose filter is not positive does not apply. -/
structure Model.RowSpec where
  description : String := ""
  filter : Option String := none
  text : String
  coefficients : List Float := []

structure Model.UtilitySpec where
  name : String
  alternatives : List String
  rows : List Model.RowSpec := []

structure Model where
  scalars : List (String × Float) := []
  zones : Option Model.Table := none
  households : Option Model.Table := none
  alternatives : Option Model.Table := none
  matrices : List Model.MatrixSpec := []
  arrays : List Model.GroupSpec := []
  collections : List Model.GroupSpec := []
  formulas : List (String × String) := []
  utilities : List Model.UtilitySpec := []

end ChoiceModel
