import ChoiceModel.Expression.Compile
import ChoiceModel.Expression.Evaluate

/-! Expressions: a text that is compiled once and then evaluated any number of times. -/

namespace ChoiceModel

open Expression Store

inductive Expression.State where
  | pending
  | compiled (c : Compiled)
  | failed (e : SyntaxError)

structure Expression where
  text : String
  state : Expression.State := .pending

namespace Expression

variable {σ κ τ : Type}

def compiled? (e : Expression) : Option Compiled :=
  match e.state with
  | .compiled c => some c
  | _ => none

def program? (e : Expression) : Option Program := e.compiled?.map Compiled.program

def target? (e : Expression) : Option Nat := e.compiled?.bind Compiled.target

def error? (e : Expression) : Option SyntaxError :=
  match e.state with
  | .failed err => some err
  | _ => none

/-- Compiles an expression that is still pending. Afterwards no name is resolved again, and the
outcome of the first time is repeated. -/
def parse [Resolver σ] (e : Expression) (s : σ) : Except SyntaxError Unit × Expression × σ :=
  match e.state with
  | .compiled _ => (.ok (), e, s)
  | .failed err => (.error err, e, s)
  | .pending =>
    match compile e.text s with
    | (.ok c, s) => (.ok (), { e with state := .compiled c }, s)
    | (.error err, s) => (.error err, { e with state := .failed err }, s)

def ofText? [Resolver σ] (text : String) (s : σ) : Except SyntaxError Expression × σ :=
  match parse ⟨text, .pending⟩ s with
  | (.ok (), e, s) => (.ok e, s)
  | (.error err, _, s) => (.error err, s)

def valueSeen [Cells σ κ] (obs : Observer τ) (e : Expression) (table : σ) (ctx : κ) (seen : τ) :
    Except EvalError Float × τ :=
  match e.state with
  | .compiled c => evaluate obs c.program table ctx seen
  | _ => (.error (.notCompiled e.text), seen)

/-- Evaluates an expression, observed, and writes the value to the target of an assignment. -/
def solveSeen [Cells σ κ] (obs : Observer τ) (e : Expression) (table : σ) (ctx : κ) (seen : τ) :
    Except EvalError Float × σ × τ :=
  match valueSeen obs e table ctx seen with
  | (.error err, seen) => (.error err, table, seen)
  | (.ok x, seen) =>
    match e.target? with
    | none => (.ok x, table, seen)
    | some index =>
      match Cells.write table index x ctx with
      | .ok table => (.ok x, table, seen)
      | .error err => (.error err, table, seen)

def value [Cells σ κ] (e : Expression) (table : σ) (ctx : κ) : Except EvalError Float :=
  (valueSeen .silent e table ctx ()).1

def solve [Cells σ κ] (e : Expression) (table : σ) (ctx : κ) : Except EvalError Float × σ :=
  match solveSeen .silent e table ctx () with
  | (result, table, ()) => (result, table)

end Expression

end ChoiceModel
