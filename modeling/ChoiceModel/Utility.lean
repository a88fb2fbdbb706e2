import ChoiceModel.Expression.Basic
import ChoiceModel.Model.Basic
import ChoiceModel.Model.Error
import ChoiceModel.Store.Binding

/-! Utilities: the utility of an alternative is the sum of coefficient times value over the rows
that apply to it. Rows without coefficients assign values for the rows after them. -/

namespace ChoiceModel

open Expression Store
open Model (Defect RowSpec UtilitySpec)

structure Utility.Row where
  filter : Option Expression
  expression : Expression
  coefficients : List Float

structure Utility where
  name : String
  alternatives : List String
  rows : List Utility.Row

namespace Utility

section Compile

variable {σ : Type} [Resolver σ]

/-- The compiled filter of a row; a blank one counts as none. -/
def compileFilter (spec : UtilitySpec) (number : Nat) (row : RowSpec) (s : σ) :
    Except Model.Error (Option Expression) × σ :=
  let text := String.ofList (Text.trim (row.filter.getD "").toList)
  if text.isEmpty then (.ok none, s)
  else
    match Expression.ofText? text s with
    | (.error e, s) => (.error (.compile text e), s)
    | (.ok filter, s) =>
      if filter.target?.isSome then (.error (.invalid (.assigningFilter spec.name number)), s)
      else (.ok (some filter), s)

/-- A row has to do something: assign, or give every alternative a coefficient. -/
def checkRow (spec : UtilitySpec) (number : Nat) (row : RowSpec) (e : Expression) :
    Except Defect Unit :=
  if row.coefficients.isEmpty then
    if e.target?.isNone then .error (.idleRow spec.name number) else .ok ()
  else if row.coefficients.length != spec.alternatives.length then
    .error (.coefficientCount spec.name number row.coefficients.length spec.alternatives.length)
  else .ok ()

def compileRow (spec : UtilitySpec) (number : Nat) (row : RowSpec) (s : σ) :
    Except Model.Error Row × σ :=
  match compileFilter spec number row s with
  | (.error e, s) => (.error e, s)
  | (.ok filter, s) =>
    match Expression.ofText? row.text s with
    | (.error e, s) => (.error (.compile row.text e), s)
    | (.ok e, s) =>
      match checkRow spec number row e with
      | .error defect => (.error (.invalid defect), s)
      | .ok () => (.ok ⟨filter, e, row.coefficients⟩, s)

def compileRows (spec : UtilitySpec) (number : Nat) :
    List RowSpec → σ → Except Model.Error (List Row) × σ
  | [], s => (.ok [], s)
  | row :: rest, s =>
    match compileRow spec number row s with
    | (.error e, s) => (.error e, s)
    | (.ok r, s) =>
      match compileRows spec (number + 1) rest s with
      | (.error e, s) => (.error e, s)
      | (.ok rs, s) => (.ok (r :: rs), s)

def compile (spec : UtilitySpec) (s : σ) : Except Model.Error Utility × σ :=
  if spec.alternatives.isEmpty then (.error (.invalid (.noAlternatives spec.name)), s)
  else
    match compileRows spec 1 spec.rows s with
    | (.error e, s) => (.error e, s)
    | (.ok rows, s) => (.ok ⟨spec.name, spec.alternatives, rows⟩, s)

end Compile

/-- The expressions of all rows, the filter of a row before its expression. -/
def expressions (u : Utility) : List Expression :=
  u.rows.flatMap fun row => row.filter.toList ++ [row.expression]

section Solve

variable {σ ο τ : Type} [Cells σ (Context ο)]

def Row.applies (obs : Observer τ) (row : Row) (table : σ) (ctx : Context ο) (seen : τ) :
    Except (Expression × EvalError) Bool × τ :=
  match row.filter with
  | none => (.ok true, seen)
  | some filter =>
    match filter.valueSeen obs table ctx seen with
    | (.ok x, seen) => (.ok (x > 0.0), seen)
    | (.error e, seen) => (.error (filter, e), seen)

/-- What a row adds to the utility of the alternative counted `k` from 0, if anything. A row that
assigns nothing is not evaluated for a coefficient of 0. -/
def Row.term (obs : Observer τ) (row : Row) (k : Nat) (table : σ) (ctx : Context ο) (seen : τ) :
    Except (Expression × EvalError) (Option Float) × σ × τ :=
  match row.applies obs table ctx seen with
  | (.error e, seen) => (.error e, table, seen)
  | (.ok false, seen) => (.ok none, table, seen)
  | (.ok true, seen) =>
    let coefficient := row.coefficients[k]?
    if row.expression.target?.isNone && coefficient.any (· == 0.0) then (.ok none, table, seen)
    else
      match row.expression.solveSeen obs table ctx seen with
      | (.error e, table, seen) => (.error (row.expression, e), table, seen)
      | (.ok x, table, seen) => (.ok (coefficient.map (· * x)), table, seen)

/-- Adds what the rows, counted from `number`, give to a sum; the context selects the alternative
counted `k` from 0. -/
def sumRows (obs : Observer τ) (u : Utility) (k : Nat) (ctx : Context ο) (number : Nat) :
    List Row → Float → σ → τ → Except Model.Error Float × σ × τ
  | [], sum, table, seen => (.ok sum, table, seen)
  | row :: rest, sum, table, seen =>
    match row.term obs k table ctx seen with
    | (.error (e, cause), table, seen) =>
      (.error (.solve u.name (u.alternatives.getD k "") number e.text cause), table, seen)
    | (.ok none, table, seen) => sumRows obs u k ctx (number + 1) rest sum table seen
    | (.ok (some x), table, seen) => sumRows obs u k ctx (number + 1) rest (sum + x) table seen

def ofAlternative (obs : Observer τ) (u : Utility) (k : Nat) (table : σ) (ctx : Context ο)
    (seen : τ) : Except Model.Error Float × σ × τ :=
  sumRows obs u k { ctx with alternative := k + 1 } 1 u.rows 0.0 table seen

/-- Replaces the slots, counted from `k`, by utilities; after a failure the rest stays. -/
def fillFrom (obs : Observer τ) (u : Utility) (ctx : Context ο) (k : Nat) :
    List Float → σ → τ → Except Model.Error Unit × List Float × σ × τ
  | [], table, seen => (.ok (), [], table, seen)
  | slot :: rest, table, seen =>
    match u.ofAlternative obs k table ctx seen with
    | (.error e, table, seen) => (.error e, slot :: rest, table, seen)
    | (.ok x, table, seen) =>
      match fillFrom obs u ctx (k + 1) rest table seen with
      | (result, rest, table, seen) => (result, x :: rest, table, seen)

def fill (obs : Observer τ) (u : Utility) (table : σ) (ctx : Context ο) (slots : List Float)
    (seen : τ) : Except Model.Error Unit × List Float × σ × τ :=
  if slots.length != u.alternatives.length then
    (.error (.invalid (.outputSize u.name u.alternatives.length slots.length)), slots, table, seen)
  else fillFrom obs u ctx 0 slots table seen

def solveSeen (obs : Observer τ) (u : Utility) (table : σ) (ctx : Context ο) (seen : τ) :
    Except Model.Error (List Float) × σ × τ :=
  match u.fill obs table ctx (u.alternatives.map fun _ => 0.0) seen with
  | (.ok (), utilities, table, seen) => (.ok utilities, table, seen)
  | (.error e, _, table, seen) => (.error e, table, seen)

/-- The utility of one alternative, counted from 1, observed. -/
def traceSeen (obs : Observer τ) (u : Utility) (table : σ) (ctx : Context ο) (alternative : Nat)
    (seen : τ) : Except Model.Error Float × σ × τ :=
  if alternative == 0 || alternative > u.alternatives.length then
    (.error (.invalid (.noAlternative u.name alternative)), table, seen)
  else u.ofAlternative obs (alternative - 1) table ctx seen

def solve (u : Utility) (table : σ) (ctx : Context ο) : Except Model.Error (List Float) × σ :=
  match u.solveSeen .silent table ctx () with
  | (result, table, ()) => (result, table)

def trace (u : Utility) (table : σ) (ctx : Context ο) (alternative : Nat) :
    Except Model.Error Float × σ :=
  match u.traceSeen .silent table ctx alternative () with
  | (result, table, ()) => (result, table)

end Solve

end Utility

end ChoiceModel
