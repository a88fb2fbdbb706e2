import ChoiceModel.Proofs.Expression.Sound
import ChoiceModel.Proofs.Utility

/-! Whatever a caller does with variables after an expression has been compiled against them, the
expression goes on to find everything that it was compiled to. -/

namespace ChoiceModel

open Expression Store

variable {ο τ : Type}

namespace Store

theorem written_grows : Written (Context ο) (@Variables.Grows ο) where
  refl := .refl
  trans _ _ _ := .trans
  write _ _ _ _ _ := Variables.write_grows

/-- What a caller can do with variables. What fails stays without a consequence, but for the names
resolved, the values assigned and the matrices added before. -/
inductive Operation (ο : Type) where
  | resolveRead (name : String)
  | resolveArray (name : String)
  | resolveAssign (name : String)
  | compile (text : String)
  | solve (e : Expression) (ctx : Context ο)
  | write (i : Nat) (x : Float) (ctx : Context ο)
  | compileUtility (spec : Model.UtilitySpec)
  | solveUtility (u : Utility) (ctx : Context ο)
  | traceUtility (u : Utility) (ctx : Context ο) (alternative : Nat)
  | setScalar (name : String) (x : Float)
  | addZoneColumn (name : String) (values : Array Float)
  | addHouseholdColumn (name : String) (values : Array Float)
  | addAlternativeColumn (name : String) (values : Array Float)
  | addMatrix (m : Matrix) (orientation : Orientation)
  | addArray (name : String) (members : Array Matrix) (orientation : Orientation)
  | addCollection (name : String) (members : Array Matrix) (orientation : Orientation)
  | register (name : String) (f : Accessor ο)

/-- The table with the column, or as it was where the column does not fit. -/
def DataTable.withColumn (t : DataTable) (name : String) (values : Array Float) : DataTable :=
  match t.addColumn name values with
  | .ok (_, t) => t
  | .error _ => t

theorem DataTable.withColumn_keepsNames (t : DataTable) (name : String) (values : Array Float) :
    KeepsNames t.columns (t.withColumn name values).columns := by
  unfold withColumn
  split
  · rename_i hadd
    exact addColumn_keepsNames hadd
  · exact .refl _

namespace Variables

def perform (v : Variables ο) : Operation ο → Variables ο
  | .resolveRead name => (resolveRead name v).2
  | .resolveArray name => (resolveArray name v).2
  | .resolveAssign name => (resolveAssign name v).2
  | .compile text => (Expression.ofText? text v).2
  | .solve e ctx => (e.solve v ctx).2
  | .write i x ctx =>
    match v.write i x ctx with
    | .ok v => v
    | .error _ => v
  | .compileUtility spec => (Utility.compile spec v).2
  | .solveUtility u ctx => (u.solve v ctx).2
  | .traceUtility u ctx alternative => (u.trace v ctx alternative).2
  | .setScalar name x => { v with scalars := (v.scalars.set name x).2 }
  | .addZoneColumn name values => { v with zones := v.zones.withColumn name values }
  | .addHouseholdColumn name values => { v with households := v.households.withColumn name values }
  | .addAlternativeColumn name values =>
    { v with alternatives := v.alternatives.withColumn name values }
  | .addMatrix m orientation => { v with matrices := (v.matrices.addMatrix m orientation).2 }
  | .addArray name members orientation =>
    { v with matrices := (v.matrices.addArray name members orientation).2 }
  | .addCollection name members orientation =>
    { v with matrices := (v.matrices.addCollection name members orientation).2 }
  | .register name f => { v with attributes := (v.attributes.register name f).2 }

def performAll (v : Variables ο) (operations : List (Operation ο)) : Variables ο :=
  operations.foldl perform v

theorem grows_matrices {v : Variables ο} {t : Matrices} (h : v.matrices.KeepsEntries t) :
    v.Grows { v with matrices := t } :=
  .of_stores rfl { KeepsStores.refl v with matrices := h }

theorem perform_grows (v : Variables ο) (operation : Operation ο) : v.Grows (v.perform operation) := by
  cases operation with
  | resolveRead name => exact resolveRead_grows name v
  | resolveArray name => exact resolveArray_grows name v
  | resolveAssign name => exact resolveAssign_grows name v
  | compile text => exact Expression.ofText?_resolving resolving_grows text v
  | solve e ctx => exact e.solveSeen_written written_grows .silent v ctx ()
  | write i x ctx =>
    unfold perform
    simp only
    split
    · rename_i hwrite
      exact write_grows hwrite
    · exact .refl v
  | compileUtility spec => exact Utility.compile_resolving resolving_grows spec v
  | solveUtility u ctx => exact u.solveSeen_written written_grows .silent v ctx ()
  | traceUtility u ctx alternative =>
    exact u.traceSeen_written written_grows .silent v ctx alternative ()
  | setScalar name x =>
    exact .of_stores rfl { KeepsStores.refl v with scalars := v.scalars.set_keepsNames name x }
  | addZoneColumn name values =>
    exact .of_stores rfl { KeepsStores.refl v with zones := v.zones.withColumn_keepsNames name values }
  | addHouseholdColumn name values =>
    exact .of_stores rfl
      { KeepsStores.refl v with households := v.households.withColumn_keepsNames name values }
  | addAlternativeColumn name values =>
    exact .of_stores rfl
      { KeepsStores.refl v with alternatives := v.alternatives.withColumn_keepsNames name values }
  | addMatrix m orientation => exact grows_matrices (v.matrices.add_keepsEntries _)
  | addArray name members orientation => exact grows_matrices (v.matrices.add_keepsEntries _)
  | addCollection name members orientation =>
    exact grows_matrices (v.matrices.addCollection_keepsEntries name members orientation)
  | register name f =>
    exact .of_stores rfl { KeepsStores.refl v with attributes := v.attributes.register_keepsNames name f }

theorem performAll_grows (v : Variables ο) (operations : List (Operation ο)) :
    v.Grows (v.performAll operations) := by
  induction operations generalizing v with
  | nil => exact .refl v
  | cons operation operations ih => exact (v.perform_grows operation).trans (ih _)

/-- Variables before any name has been resolved: empty ones or those of a model, with accessors. -/
inductive Fresh : Variables ο → Prop where
  | new (attributes : Attributes ο) : Fresh { attributes }
  | loaded {m : Model} {v : Variables ο} (attributes : Attributes ο) : m.load = .ok v →
    Fresh { v with attributes }

theorem Fresh.grounded {v : Variables ο} (h : Fresh v) : v.Grounded := by
  cases h with
  | new attributes => exact grounded_of_bindings_eq_empty rfl
  | loaded attributes hload =>
    have hbindings := load_bindings hload
    exact grounded_of_bindings_eq_empty hbindings

end Variables

end Store

namespace Expression

/-- An expression that has compiled once never fails for a missing instruction, binding or target,
whatever is done with the variables before and after. -/
theorem solve_performAll {start v : Variables ο} {text : String} {e : Expression}
    (before later : List (Operation ο)) (hstart : start.Fresh)
    (hcompile : ofText? text (start.performAll before) = (.ok e, v)) (ctx : Store.Context ο) :
    FailsOnData (e.solve (v.performAll later) ctx).1 := by
  obtain ⟨c, hc, rfl⟩ := ofText?_eq_ok_iff.mp hcompile
  have hcompiled := compile_resolving resolving_grows text (start.performAll before)
  rw [hc] at hcompiled
  have hlater := v.performAll_grows later
  have hgrounded : (v.performAll later).Grounded :=
    hlater.grounded (hcompiled.grounded ((start.performAll_grows before).grounded hstart.grounded))
  exact solve_failsOnData hgrounded ((compile_sound hc).mono hlater) ctx

/-- Households with one column, which an expression reads. -/
def oneHousehold (x : Float) : Variables Unit where
  households := ⟨#[("autos", #[x])], 1⟩
  bindings := #[⟨"autos", .household 0⟩]

set_option maxRecDepth 20000 in
/-- A column that is replaced after an expression over it has been compiled. -/
theorem solve_performAll_replaced : ∃ (e : Expression) (v : Variables Unit),
    ofText? "autos" (({} : Variables Unit).performAll [.addHouseholdColumn "autos" #[1.0]]) =
        (.ok e, v) ∧
      (e.solve (v.performAll [.addHouseholdColumn "autos" #[2.0]])
        ({ household := some 0 } : Store.Context Unit)).1 = .ok 2.0 ∧
      FailsOnData (e.solve (v.performAll [.addHouseholdColumn "autos" #[2.0]])
        ({} : Store.Context Unit)).1 := by
  have hcompile : ∀ x, ofText? "autos" (({} : Variables Unit).performAll
      [.addHouseholdColumn "autos" #[x]]) =
      (.ok ⟨"autos", .compiled ⟨Tree.program (.load ⟨"autos", 0⟩), none⟩⟩, oneHousehold x) := by
    intro x
    cbv
  have hreplace : ∀ x y, (oneHousehold x).performAll [.addHouseholdColumn "autos" #[y]] = oneHousehold y := by
    intro x y
    cbv
  have hvalue : ∀ y, evaluate .silent (Tree.program (.load ⟨"autos", 0⟩)) (oneHousehold y)
      ({ household := some 0 } : Store.Context Unit) () = (.ok y, ()) := by
    intro y
    refine finished_injective ?_
    rw [← forwardPass_eq_evaluate]
    rfl
  refine ⟨_, _, hcompile 1.0, ?_, solve_performAll _ _ (.new {}) (hcompile 1.0) {}⟩
  simp only [solve, solveSeen, valueSeen, hreplace, hvalue]
  rfl

end Expression

end ChoiceModel
