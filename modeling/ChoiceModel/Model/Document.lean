import ChoiceModel.Decimal.Layout
import ChoiceModel.Model.Basic
import ChoiceModel.Model.Keyed

/-! Models read from structured documents, whatever notation these are written in. Fields that are
not known are left aside. -/

namespace ChoiceModel.Model

open Store (Orientation)

/-- What a notation for documents has to tell of its values, in readings that may fail. -/
class Document (ν : Type) (m : outParam (Type → Type)) where
  /-- The fields of a record, which may also be given in their order without names. -/
  fields : List String → ν → m (List (String × ν))
  pairs : ν → m (List (String × ν))
  items : ν → m (List ν)
  string : ν → m String
  number : ν → m Float
  /-- A text, or a number in place of it. -/
  textOrNumber : ν → m (String ⊕ Float)
  choice : ν → m String
  nonNull : ν → m (Option ν)

namespace Document

variable {ν : Type} {m : Type → Type} [Monad m] [MonadExcept Unit m] [Document ν m]

def record (names : List String) (v : ν) : m (List (String × ν)) := do
  let fields ← fields names v
  if names.any fun name => (fields.filter fun f => f.1 == name).length > 1 then throw ()
  else return fields

def required {α : Type} (fields : List (String × ν)) (name : String) (read : ν → m α) : m α :=
  (fields.lookup name).elim (throw ()) read

def optional {α : Type} (fields : List (String × ν)) (name : String) (default : α)
    (read : ν → m α) : m α :=
  (fields.lookup name).elim (pure default) read

def nullable {α : Type} (read : ν → m α) (v : ν) : m (Option α) := do
  match ← nonNull v with
  | some v => return some (← read v)
  | none => return none

def list {α : Type} (read : ν → m α) (v : ν) : m (List α) := do
  (← items v).mapM read

def map {α : Type} (read : ν → m α) (v : ν) : m (List (String × α)) := do
  let pairs ← pairs v
  return ofPairs (← pairs.mapM fun (name, v) => return (name, ← read v))

/-- The text of an expression. A number stands for its own text. -/
def expression (v : ν) : m String := do
  match ← textOrNumber v with
  | .inl s => return s
  | .inr x => return Decimal.plain.write x

def orientation (v : ν) : m Orientation := do
  match ← choice v with
  | "od" => return .byOrigin
  | "do" => return .byDestination
  | _ => throw ()

def values (v : ν) : m (Array Float) := return (← list number v).toArray

def table (v : ν) : m Table := do
  let fields ← record ["columns"] v
  return { columns := ← optional fields "columns" [] (map values) }

def matrix (v : ν) : m MatrixSpec := do
  let fields ← record ["name", "orientation", "values"] v
  return {
    name := ← required fields "name" string
    orientation := ← optional fields "orientation" .byOrigin orientation
    values := (← required fields "values" (list values)).toArray }

def group (v : ν) : m GroupSpec := do
  let fields ← record ["name", "orientation", "members"] v
  return {
    name := ← required fields "name" string
    orientation := ← optional fields "orientation" .byOrigin orientation
    members := ← required fields "members" (list matrix) }

def row (v : ν) : m RowSpec := do
  let fields ← record ["description", "filter", "expression", "coefficients"] v
  return {
    description := ← optional fields "description" "" string
    filter := ← optional fields "filter" none (nullable expression)
    text := ← required fields "expression" expression
    coefficients := ← optional fields "coefficients" [] (list number) }

def utility (v : ν) : m UtilitySpec := do
  let fields ← record ["name", "alternatives", "rows"] v
  return {
    name := ← required fields "name" string
    alternatives := ← required fields "alternatives" (list string)
    rows := ← optional fields "rows" [] (list row) }

def model (v : ν) : m Model := do
  let fields ← record ["scalars", "zones", "households", "alternatives", "matrices",
    "matrix_arrays", "matrix_collections", "formulas", "utilities"] v
  return {
    scalars := ← optional fields "scalars" [] (map number)
    zones := ← optional fields "zones" none (nullable table)
    households := ← optional fields "households" none (nullable table)
    alternatives := ← optional fields "alternatives" none (nullable table)
    matrices := ← optional fields "matrices" [] (list matrix)
    arrays := ← optional fields "matrix_arrays" [] (list group)
    collections := ← optional fields "matrix_collections" [] (list group)
    formulas := ← optional fields "formulas" [] (map expression)
    utilities := ← optional fields "utilities" [] (list utility) }

end Document

end ChoiceModel.Model
