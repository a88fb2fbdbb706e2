import ChoiceModel.Expression.Names
import ChoiceModel.Model.Basic
import ChoiceModel.Model.Error

/-! The order in which formulas are evaluated: each one after those that it reads. A depth-first
search along the readers of each formula gives the order, which is then checked. -/

namespace ChoiceModel.Model

/-- Every formula with the formulas that it reads, in the order of its text and with repetitions. -/
abbrev Reads := List (String × List String)

/-- The formulas that read `name`, the last one first. -/
def readers (reads : Reads) (name : String) : List String :=
  (reads.flatMap fun (f, names) => (names.filter (· == name)).map fun _ => f).reverse

def readBy (reads : Reads) (name : String) : List String := (reads.lookup name).getD []

/-- Visits the names on the stack and all that follow from them. A name is entered while it is
fresh, below the names that follow it, and finished when it comes up again; `finished` has the last
one first. A name that follows itself ends the search. -/
def visit (next : String → List String) (fresh stack finished : List String) :
    Except String (List String × List String) :=
  match stack with
  | [] => .ok (fresh, finished)
  | name :: rest =>
    if _ : fresh.contains name then
      let fresh' := fresh.erase name
      let following := next name
      if following.contains name then .error name
      else visit next fresh' ((following.filter fresh'.contains).reverse ++ name :: rest) finished
    else visit next fresh rest (if finished.contains name then finished else name :: finished)
termination_by (fresh.length, stack.length)
decreasing_by
  · rename_i h _
    have hmem : name ∈ fresh := by simpa using h
    have hlen := List.length_erase_of_mem hmem
    have hpos := List.length_pos_of_mem hmem
    simp only [Prod.lex_def]
    left
    omega
  · simp [Prod.lex_def]

def visitAll (next : String → List String) (fresh finished : List String) :
    List String → Except String (List String)
  | [] => .ok finished
  | name :: rest =>
    if fresh.contains name then
      match visit next fresh [name] finished with
      | .ok (fresh, finished) => visitAll next fresh finished rest
      | .error name => .error name
    else visitAll next fresh finished rest

/-- The first name that is read in front of its own place, given the names already placed. -/
def misplaced? (reads : Reads) (placed : List String) : List String → Option String
  | [] => none
  | name :: rest =>
    match (readBy reads name).find? fun r => r != name && !placed.contains r with
    | some r => some r
    | none => misplaced? reads (name :: placed) rest

/-- An order of the names in which each one comes after those that it reads, or a name on a
cycle. -/
def sortReads (reads : Reads) : Except String (List String) :=
  let names := reads.map Prod.fst
  match visitAll (readers reads) names [] names with
  | .error name => .error name
  | .ok order =>
    match misplaced? reads [] order with
    | some name => .error name
    | none => .ok order

/-- What each formula reads of the other formulas and of itself. -/
def formulaReads (m : Model) : Except Error Reads :=
  m.formulas.mapM fun (name, text) =>
    match Expression.variableNames text with
    | .ok names => .ok (name, names.filter fun n => (m.formulas.lookup n).isSome)
    | .error e => .error (.compile text e)

def formulaOrder (m : Model) : Except Error (List String) := do
  match sortReads (← formulaReads m) with
  | .ok order => return order
  | .error name => throw (.circular name)

end ChoiceModel.Model
