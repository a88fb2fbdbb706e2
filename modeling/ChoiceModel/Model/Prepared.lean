import ChoiceModel.Model.Keyed
import ChoiceModel.Model.Load
import ChoiceModel.Model.Order
import ChoiceModel.Utility

/-! Models ready to run: formulas compiled in evaluation order and utilities after them, all against
the same variables, which keep their values from one run to the next. -/

namespace ChoiceModel

open Expression Store

structure Model.Prepared where
  data : Variables Unit
  formulas : List (String × Expression)
  utilities : List Utility

structure Model.UtilityResult where
  name : String
  alternatives : List String
  utilities : List Float

structure Model.Results where
  /-- The values of the formulas in the order of their names. -/
  formulas : List (String × Float) := []
  utilities : List Model.UtilityResult := []

namespace Model

def data (m : Model) : Except Error (Variables Unit) :=
  match m.load with
  | .ok v => .ok v
  | .error defect => .error (.invalid defect)

def compileFormula (m : Model) (name : String) (v : Variables Unit) :
    Except Error Expression × Variables Unit :=
  let text := name ++ " = " ++ (m.formulas.lookup name).getD ""
  match Expression.ofText? text v with
  | (.ok e, v) => (.ok e, v)
  | (.error cause, v) => (.error (.compile text cause), v)

def compileFormulas (m : Model) :
    List String → Variables Unit → Except Error (List (String × Expression)) × Variables Unit
  | [], v => (.ok [], v)
  | name :: rest, v =>
    match m.compileFormula name v with
    | (.error e, v) => (.error e, v)
    | (.ok e, v) =>
      match compileFormulas m rest v with
      | (.error e, v) => (.error e, v)
      | (.ok es, v) => (.ok ((name, e) :: es), v)

def compileUtilities :
    List UtilitySpec → Variables Unit → Except Error (List Utility) × Variables Unit
  | [], v => (.ok [], v)
  | spec :: rest, v =>
    match Utility.compile spec v with
    | (.error e, v) => (.error e, v)
    | (.ok u, v) =>
      match compileUtilities rest v with
      | (.error e, v) => (.error e, v)
      | (.ok us, v) => (.ok (u :: us), v)

/-- Compiles a model against fresh variables, up to the first error. -/
def prepare (m : Model) : Except Error Prepared := do
  let v ← m.data
  let order ← m.formulaOrder
  match m.compileFormulas order v with
  | (.error e, _) => throw e
  | (.ok formulas, v) =>
    match compileUtilities m.utilities v with
    | (.error e, _) => throw e
    | (.ok utilities, v) => return { data := v, formulas, utilities }

/-- The errors of the named formulas. -/
def formulaErrors (m : Model) : List String → Variables Unit → List Error × Variables Unit
  | [], v => ([], v)
  | name :: rest, v =>
    match m.compileFormula name v with
    | (.ok _, v) => formulaErrors m rest v
    | (.error e, v) =>
      let (es, v) := formulaErrors m rest v
      (e :: es, v)

def utilityErrors : List UtilitySpec → Variables Unit → List Error
  | [], _ => []
  | spec :: rest, v =>
    match Utility.compile spec v with
    | (.ok _, v) => utilityErrors rest v
    | (.error e, v) => e :: utilityErrors rest v

/-- Compiles all of a model and collects its errors. Without an order the formulas are left out, and
without data everything is. -/
def errors (m : Model) : List Error :=
  match m.data with
  | .error e => [e]
  | .ok v =>
    match m.formulaOrder with
    | .error e => e :: utilityErrors m.utilities v
    | .ok order =>
      let (es, v) := m.formulaErrors order v
      es ++ utilityErrors m.utilities v

namespace Prepared

variable {τ : Type}

/-- Solves formulas one after the other, and puts their values to those before them. -/
def solveFormulas (obs : Observer τ) (ctx : Context Unit) :
    List (String × Expression) → List (String × Float) → Variables Unit → τ →
      Except Error (List (String × Float)) × Variables Unit × τ
  | [], values, v, seen => (.ok values, v, seen)
  | (name, e) :: rest, values, v, seen =>
    match e.solveSeen obs v ctx seen with
    | (.error cause, v, seen) => (.error (.eval e.text cause), v, seen)
    | (.ok x, v, seen) => solveFormulas obs ctx rest (insertKey name x values) v seen

def solveUtilities (obs : Observer τ) (ctx : Context Unit) :
    List Utility → Variables Unit → τ → Except Error (List UtilityResult) × Variables Unit × τ
  | [], v, seen => (.ok [], v, seen)
  | u :: rest, v, seen =>
    match u.solveSeen obs v ctx seen with
    | (.error e, v, seen) => (.error e, v, seen)
    | (.ok utilities, v, seen) =>
      match solveUtilities obs ctx rest v seen with
      | (.error e, v, seen) => (.error e, v, seen)
      | (.ok results, v, seen) => (.ok (⟨u.name, u.alternatives, utilities⟩ :: results), v, seen)

/-- Evaluates the formulas in order and then every utility, observed. What was assigned before an
error stays. -/
def runSeen (obs : Observer τ) (p : Prepared) (ctx : Context Unit) (seen : τ) :
    Except Error Results × Prepared × τ :=
  match solveFormulas obs ctx p.formulas [] p.data seen with
  | (.error e, data, seen) => (.error e, { p with data }, seen)
  | (.ok formulas, data, seen) =>
    match solveUtilities obs ctx p.utilities data seen with
    | (.error e, data, seen) => (.error e, { p with data }, seen)
    | (.ok utilities, data, seen) =>
      (.ok { formulas, utilities }, { p with data }, seen)

def run (p : Prepared) (ctx : Context Unit) : Except Error Results × Prepared :=
  match p.runSeen .silent ctx () with
  | (result, p, ()) => (result, p)

end Prepared

end Model

end ChoiceModel
