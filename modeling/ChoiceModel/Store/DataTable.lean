import ChoiceModel.Store.Access
import ChoiceModel.Model.Defect

/-! Tables of named columns of equal length, read at a row. -/

namespace ChoiceModel.Store

open Expression (EvalError CellFault)
open Model (Defect)

structure DataTable where
  columns : Array (String × Array Float) := #[]
  rows : Nat := 0

namespace DataTable

def indexOf? (t : DataTable) (name : String) : Option Nat :=
  t.columns.findIdx? fun column => column.1 == name

def name? (t : DataTable) (i : Nat) : Option String := t.columns[i]?.map Prod.fst

def column? (t : DataTable) (name : String) : Option (Array Float) :=
  (t.indexOf? name).bind fun i => t.columns[i]?.map Prod.snd

/-- Adds a column or replaces the one of the same name. Only the first column of a table is free
in its length. -/
def addColumn (t : DataTable) (name : String) (values : Array Float) :
    Except Defect (Nat × DataTable) :=
  if !t.columns.isEmpty && values.size != t.rows then
    .error (.columnLength name values.size t.rows)
  else
    match t.indexOf? name with
    | some i => .ok (i, ⟨t.columns.modify i fun column => (column.1, values), values.size⟩)
    | none => .ok (t.columns.size, ⟨t.columns.push (name, values), values.size⟩)

def ofColumns (columns : List (String × Array Float)) : Except Defect DataTable :=
  columns.foldlM (fun t column => (t.addColumn column.1 column.2).map Prod.snd) {}

/-- The index of a column, which is added with zeros if the table has none of this name. -/
def allocate (t : DataTable) (name : String) : Nat × DataTable :=
  match t.indexOf? name with
  | some i => (i, t)
  | none => (t.columns.size, { t with columns := t.columns.push (name, .replicate t.rows 0.0) })

def outOfRange (t : DataTable) (column row : Nat) : EvalError :=
  .cell ((t.name? column).getD "?") (.row row t.rows)

def read (t : DataTable) (column row : Nat) : Except EvalError Float :=
  match t.columns[column]? with
  | none => .error (.unbound column)
  | some (_, values) =>
    match values[row]? with
    | some x => .ok x
    | none => .error (t.outOfRange column row)

def write (t : DataTable) (column row : Nat) (x : Float) : Except EvalError DataTable :=
  match t.columns[column]? with
  | none => .error (.unbound column)
  | some (name, values) =>
    if row < values.size then
      .ok { t with columns := t.columns.setIfInBounds column (name, values.setIfInBounds row x) }
    else .error (t.outOfRange column row)

def readIndexed (t : DataTable) (column : Nat) : Except EvalError Float :=
  .error (.notSubscriptable ((t.name? column).getD "?"))

end DataTable

instance : Resolver DataTable where
  resolveRead name t := (t.indexOf? name, t)
  resolveAssign name t :=
    let (i, t) := t.allocate name
    (some i, t)

/-- The context is the row, counted from 0. -/
instance : Cells DataTable Nat where
  read t i row := t.read i row
  readIndexed t i _ _ := t.readIndexed i
  write t i x row := t.write i row x

end ChoiceModel.Store
