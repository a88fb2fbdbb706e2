import ChoiceModel.Decimal.Arithmetic
import ChoiceModel.Model.Defect
import ChoiceModel.Store.Access

/-! Square matrices between zones, which are numbered from 1: single ones, arrays with numbered
members, and collections whose members have names of their own as well. -/

namespace ChoiceModel.Store

open Expression (EvalError CellFault)
open Model (Defect)

/-- Which end of a trip selects the row of a matrix; the other end selects the column. -/
inductive Orientation where
  | byOrigin
  | byDestination
deriving DecidableEq

def Orientation.cell : Orientation → Nat → Nat → Nat × Nat
  | byOrigin, origin, destination => (origin, destination)
  | byDestination, origin, destination => (destination, origin)

structure Matrix where
  name : String
  rows : Array (Array Float)
deriving BEq

namespace Matrix

def zones (m : Matrix) : Nat := m.rows.size

def zero (name : String) (zones : Nat) : Matrix := ⟨name, .replicate zones (.replicate zones 0.0)⟩

/-- The first row, counted from `row`, that is not `zones` long. -/
def raggedRow? (zones row : Nat) : List (Array Float) → Option (Nat × Nat)
  | [] => none
  | values :: rest =>
    if values.size != zones then some (row, values.size) else raggedRow? zones (row + 1) rest

def ofRows (name : String) (rows : Array (Array Float)) : Except Defect Matrix :=
  match raggedRow? rows.size 1 rows.toList with
  | some (row, count) => .error (.matrixRow name row count rows.size)
  | none => .ok ⟨name, rows⟩

def cell? (m : Matrix) (row column : Nat) : Option Float :=
  if row == 0 || column == 0 then none else m.rows[row - 1]?.bind fun values => values[column - 1]?

def set? (m : Matrix) (row column : Nat) (x : Float) : Option Matrix :=
  (m.cell? row column).map fun _ =>
    { m with rows := m.rows.modify (row - 1) fun values => values.setIfInBounds (column - 1) x }

def cell (m : Matrix) (row column : Nat) : Except EvalError Float :=
  match m.cell? row column with
  | some x => .ok x
  | none => .error (.cell m.name (.cell row column m.zones))

end Matrix

/-- What stands under one name: a matrix, the member of a collection with its number, or a group of
matrices. -/
inductive Content where
  | matrix (m : Matrix)
  | member (collection number : Nat) (m : Matrix)
  | array (members : Array Matrix)
  | collection (members : Array Matrix)

def Content.single? : Content → Option Matrix
  | matrix m | member _ _ m => some m
  | array _ | collection _ => none

def Content.members? : Content → Option (Array Matrix)
  | matrix _ | member .. => none
  | array members | collection members => some members

structure Entry where
  name : String
  content : Content
  orientation : Orientation

/-- The position of a 1-based subscript among `count` members; a fraction selects nothing. -/
def subscriptPosition (subscript : Float) (count : Nat) : Option Nat :=
  match Decimal.whole? subscript with
  | some (k + 1) => if k < count then some k else none
  | _ => none

structure Matrices where
  entries : Array Entry := #[]

namespace Matrices

def indexOf? (t : Matrices) (name : String) : Option Nat :=
  t.entries.findIdx? fun entry => entry.name == name

def entry? (t : Matrices) (name : String) : Option Entry :=
  (t.indexOf? name).bind fun i => t.entries[i]?

def matrix? (t : Matrices) (name : String) : Option Matrix :=
  (t.entry? name).bind fun entry => entry.content.single?

def add (t : Matrices) (entry : Entry) : Except Defect Nat × Matrices :=
  match t.indexOf? entry.name with
  | some _ => (.error (.duplicateMatrix entry.name), t)
  | none => (.ok t.entries.size, ⟨t.entries.push entry⟩)

def addMatrix (t : Matrices) (m : Matrix) (orientation : Orientation) :
    Except Defect Nat × Matrices :=
  t.add ⟨m.name, .matrix m, orientation⟩

def addArray (t : Matrices) (name : String) (members : Array Matrix) (orientation : Orientation) :
    Except Defect Nat × Matrices :=
  t.add ⟨name, .array members, orientation⟩

/-- Adds the members of a collection, counted from `number`, under their own names. Those in front
of a name that is taken stay. -/
def addMembers (orientation : Orientation) (collection number : Nat) :
    List Matrix → Matrices → Except Defect Unit × Matrices
  | [], t => (.ok (), t)
  | m :: rest, t =>
    match t.add ⟨m.name, .member collection number m, orientation⟩ with
    | (.ok _, t) => addMembers orientation collection (number + 1) rest t
    | (.error e, t) => (.error e, t)

def addCollection (t : Matrices) (name : String) (members : Array Matrix)
    (orientation : Orientation) : Except Defect Nat × Matrices :=
  match t.add ⟨name, .collection members, orientation⟩ with
  | (.error e, t) => (.error e, t)
  | (.ok collection, t) =>
    match addMembers orientation collection 1 members.toList t with
    | (.ok (), t) => (.ok collection, t)
    | (.error e, t) => (.error e, t)

/-- Single matrices and members of collections can be read. -/
def readIndex? (t : Matrices) (name : String) : Option Nat :=
  if (t.matrix? name).isSome then t.indexOf? name else none

def read (t : Matrices) (i : Nat) (trip : Nat × Nat) : Except EvalError Float :=
  match t.entries[i]? with
  | none => .error (.unbound i)
  | some entry =>
    match entry.content.single? with
    | none => .error (.unbound i)
    | some m =>
      let (row, column) := entry.orientation.cell trip.1 trip.2
      m.cell row column

def readIndexed (t : Matrices) (i : Nat) (subscript : Float) (trip : Nat × Nat) :
    Except EvalError Float :=
  match t.entries[i]? with
  | none => .error (.unbound i)
  | some entry =>
    match entry.content.members? with
    | none => .error (.notSubscriptable entry.name)
    | some members =>
      match (subscriptPosition subscript members.size).bind fun k => members[k]? with
      | none => .error (.subscript entry.name subscript)
      | some m =>
        let (row, column) := entry.orientation.cell trip.1 trip.2
        m.cell row column

def write (t : Matrices) (i : Nat) : Except EvalError Matrices :=
  match t.entries[i]? with
  | none => .error (.unbound i)
  | some entry => .error (.readOnly entry.name)

end Matrices

instance : Resolver Matrices where
  resolveRead name t := (t.readIndex? name, t)
  resolveArray name t := (t.indexOf? name, t)
  resolveAssign _ t := (none, t)

/-- The context is the origin and the destination of a trip. -/
instance : Cells Matrices (Nat × Nat) where
  read t i trip := t.read i trip
  readIndexed t i subscript trip := t.readIndexed i subscript trip
  write t i _ _ := t.write i

end ChoiceModel.Store
