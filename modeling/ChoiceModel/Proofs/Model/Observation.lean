import ChoiceModel.Model.Prepared
import ChoiceModel.Proofs.Expression.Observation
import ChoiceModel.Proofs.Utility

/-! What observers see of utilities and of whole models. As with expressions, the outcome and the
events are the same for every observer, and so are the values that a run leaves behind. -/

namespace ChoiceModel

open Expression Store

namespace Utility

variable {σ ο : Type} [Cells σ (Context ο)] (u : Utility) (table : σ) (ctx : Context ο)

theorem Row.applies_faithful (row : Row) : ∃ result events,
    ∀ (τ : Type) (obs : Observer τ) (seen : τ),
      row.applies obs table ctx seen = (result, obs.seeAll events seen) := by
  unfold Row.applies
  split
  · exact ⟨_, [], fun _ _ _ => rfl⟩
  · rename_i filter _
    obtain ⟨result, events, hvalue⟩ := filter.valueSeen_faithful table ctx
    simp only [hvalue]
    cases result with
    | error err => exact ⟨_, _, fun _ _ _ => rfl⟩
    | ok x => exact ⟨_, _, fun _ _ _ => rfl⟩

theorem Row.term_faithful (row : Row) (k : Nat) : ∃ result table' events,
    ∀ (τ : Type) (obs : Observer τ) (seen : τ),
      row.term obs k table ctx seen = (result, table', obs.seeAll events seen) := by
  obtain ⟨applies, events, happlies⟩ := row.applies_faithful table ctx
  simp only [Row.term, happlies]
  rcases applies with err | (_ | _)
  · exact ⟨_, _, _, fun _ _ _ => rfl⟩
  · exact ⟨_, _, _, fun _ _ _ => rfl⟩
  · simp only
    split
    · exact ⟨_, _, _, fun _ _ _ => rfl⟩
    · obtain ⟨result, table', more, hsolve⟩ := row.expression.solveSeen_faithful table ctx
      simp only [hsolve, ← Observer.seeAll_append]
      cases result with
      | error err => exact ⟨_, _, _, fun _ _ _ => rfl⟩
      | ok x => exact ⟨_, _, _, fun _ _ _ => rfl⟩

theorem sumRows_faithful (k number : Nat) (rows : List Row) (sum : Float) :
    ∃ result table' events, ∀ (τ : Type) (obs : Observer τ) (seen : τ),
      sumRows obs u k ctx number rows sum table seen = (result, table', obs.seeAll events seen) := by
  induction rows generalizing number sum table with
  | nil => exact ⟨_, _, [], fun _ _ _ => rfl⟩
  | cons row rows ih =>
    obtain ⟨term, table₁, events, hterm⟩ := row.term_faithful table ctx k
    simp only [sumRows, hterm]
    rcases term with err | (_ | x)
    · exact ⟨_, _, _, fun _ _ _ => rfl⟩
    · obtain ⟨result, table₂, more, hrest⟩ := ih table₁ (number + 1) sum
      simp only [hrest, ← Observer.seeAll_append]
      exact ⟨_, _, _, fun _ _ _ => rfl⟩
    · obtain ⟨result, table₂, more, hrest⟩ := ih table₁ (number + 1) (sum + x)
      simp only [hrest, ← Observer.seeAll_append]
      exact ⟨_, _, _, fun _ _ _ => rfl⟩

theorem fillFrom_faithful (k : Nat) (slots : List Float) : ∃ result slots' table' events,
    ∀ (τ : Type) (obs : Observer τ) (seen : τ),
      fillFrom obs u ctx k slots table seen = (result, slots', table', obs.seeAll events seen) := by
  induction slots generalizing k table with
  | nil => exact ⟨_, _, _, [], fun _ _ _ => rfl⟩
  | cons slot slots ih =>
    obtain ⟨sum, table₁, events, hsum⟩ :=
      u.sumRows_faithful table { ctx with alternative := k + 1 } k 1 u.rows 0.0
    simp only [fillFrom, ofAlternative, hsum]
    cases sum with
    | error err => exact ⟨_, _, _, _, fun _ _ _ => rfl⟩
    | ok x =>
      obtain ⟨result, slots', table₂, more, hrest⟩ := ih table₁ (k + 1)
      simp only [hrest, ← Observer.seeAll_append]
      exact ⟨_, _, _, _, fun _ _ _ => rfl⟩

theorem fill_faithful (slots : List Float) : ∃ result slots' table' events,
    ∀ (τ : Type) (obs : Observer τ) (seen : τ),
      u.fill obs table ctx slots seen = (result, slots', table', obs.seeAll events seen) := by
  unfold fill
  split
  · exact ⟨_, _, _, [], fun _ _ _ => rfl⟩
  · exact u.fillFrom_faithful table ctx 0 slots

theorem solveSeen_faithful : ∃ result table' events,
    ∀ (τ : Type) (obs : Observer τ) (seen : τ),
      u.solveSeen obs table ctx seen = (result, table', obs.seeAll events seen) := by
  obtain ⟨result, slots, table', events, hfill⟩ :=
    u.fill_faithful table ctx (u.alternatives.map fun _ => 0.0)
  simp only [solveSeen, hfill]
  cases result with
  | error err => exact ⟨_, _, _, fun _ _ _ => rfl⟩
  | ok _ => exact ⟨_, _, _, fun _ _ _ => rfl⟩

theorem traceSeen_faithful (alternative : Nat) : ∃ result table' events,
    ∀ (τ : Type) (obs : Observer τ) (seen : τ),
      u.traceSeen obs table ctx alternative seen = (result, table', obs.seeAll events seen) := by
  unfold traceSeen
  split
  · exact ⟨_, _, [], fun _ _ _ => rfl⟩
  · exact u.sumRows_faithful table _ _ 1 u.rows 0.0

end Utility

namespace Model.Prepared

variable (ctx : Context Unit)

theorem solveFormulas_faithful (formulas : List (String × Expression))
    (values : List (String × Float)) (v : Variables Unit) : ∃ result v' events, ∀ (τ : Type) (obs : Observer τ) (seen : τ),
      solveFormulas obs ctx formulas values v seen = (result, v', obs.seeAll events seen) := by
  induction formulas generalizing values v with
  | nil => exact ⟨_, _, [], fun _ _ _ => rfl⟩
  | cons formula formulas ih =>
    obtain ⟨name, e⟩ := formula
    obtain ⟨result, v₁, events, hsolve⟩ := e.solveSeen_faithful v ctx
    simp only [solveFormulas, hsolve]
    cases result with
    | error err => exact ⟨_, _, _, fun _ _ _ => rfl⟩
    | ok x =>
      obtain ⟨result, v₂, more, hrest⟩ := ih (insertKey name x values) v₁
      simp only [hrest, ← Observer.seeAll_append]
      exact ⟨_, _, _, fun _ _ _ => rfl⟩

theorem solveUtilities_faithful (utilities : List Utility) (v : Variables Unit) :
    ∃ result v' events, ∀ (τ : Type) (obs : Observer τ) (seen : τ),
      solveUtilities obs ctx utilities v seen = (result, v', obs.seeAll events seen) := by
  induction utilities generalizing v with
  | nil => exact ⟨_, _, [], fun _ _ _ => rfl⟩
  | cons u utilities ih =>
    obtain ⟨result, v₁, events, hsolve⟩ := u.solveSeen_faithful v ctx
    simp only [solveUtilities, hsolve]
    cases result with
    | error err => exact ⟨_, _, _, fun _ _ _ => rfl⟩
    | ok values =>
      obtain ⟨results, v₂, more, hrest⟩ := ih v₁
      simp only [hrest, ← Observer.seeAll_append]
      cases results with
      | error err => exact ⟨_, _, _, fun _ _ _ => rfl⟩
      | ok results => exact ⟨_, _, _, fun _ _ _ => rfl⟩

theorem runSeen_faithful (p : Prepared) : ∃ result p' events,
    ∀ (τ : Type) (obs : Observer τ) (seen : τ),
      p.runSeen obs ctx seen = (result, p', obs.seeAll events seen) := by
  obtain ⟨formulas, v₁, events, hformulas⟩ := solveFormulas_faithful ctx p.formulas [] p.data
  simp only [runSeen, hformulas]
  cases formulas with
  | error err => exact ⟨_, _, _, fun _ _ _ => rfl⟩
  | ok formulas =>
    obtain ⟨utilities, v₂, more, hutilities⟩ := solveUtilities_faithful ctx p.utilities v₁
    simp only [hutilities, ← Observer.seeAll_append]
    cases utilities with
    | error err => exact ⟨_, _, _, fun _ _ _ => rfl⟩
    | ok utilities => exact ⟨_, _, _, fun _ _ _ => rfl⟩

end Model.Prepared

section Observable

variable {ρ σ κ υ ο : Type} [Resolver ρ] [Cells σ κ] [Cells υ (Context ο)]

/-- An expression has the same value and leaves the same table behind for every observer, and all of
them see the steps of its program in order, up to the first that fails. -/
def Expression.Observable (e : Expression) (table : σ) (ctx : κ) : Prop :=
  ∃ p events, e.program? = some p ∧ Recorded p table ctx (e.value table ctx) events ∧
    ∀ (τ : Type) (obs : Observer τ) (seen : τ),
      e.valueSeen obs table ctx seen = (e.value table ctx, obs.seeAll events seen) ∧
        e.solveSeen obs table ctx seen =
          ((e.solve table ctx).1, (e.solve table ctx).2, obs.seeAll events seen)

/-- A utility gives the same and leaves the same behind for every observer, for all alternatives, for
one of them, or in given slots. -/
structure Utility.Observable (u : Utility) (table : υ) (ctx : Context ο) : Prop where
  solve : ∃ events, ∀ (τ : Type) (obs : Observer τ) (seen : τ), u.solveSeen obs table ctx seen =
    ((u.solve table ctx).1, (u.solve table ctx).2, obs.seeAll events seen)
  trace : ∀ alternative, ∃ events, ∀ (τ : Type) (obs : Observer τ) (seen : τ),
    u.traceSeen obs table ctx alternative seen =
      ((u.trace table ctx alternative).1, (u.trace table ctx alternative).2, obs.seeAll events seen)
  fill : ∀ slots, ∃ events, ∀ (τ : Type) (obs : Observer τ) (seen : τ),
    u.fill obs table ctx slots seen =
      ((u.fill .silent table ctx slots ()).1, (u.fill .silent table ctx slots ()).2.1,
        (u.fill .silent table ctx slots ()).2.2.1, obs.seeAll events seen)

/-- A model gives the same results and keeps the same values for every observer. -/
def Model.Prepared.Observable (p : Prepared) (ctx : Context Unit) : Prop :=
  ∃ events, ∀ (τ : Type) (obs : Observer τ) (seen : τ),
    p.runSeen obs ctx seen = ((p.run ctx).1, (p.run ctx).2, obs.seeAll events seen)

theorem Expression.observable {text : String} {e : Expression} {s s' : ρ}
    (hcompile : ofText? text s = (.ok e, s')) (table : σ) (ctx : κ) : e.Observable table ctx := by
  obtain ⟨c, hc, rfl⟩ := ofText?_eq_ok_iff.mp hcompile
  obtain ⟨t, ht⟩ := compile_eq_tree hc
  obtain ⟨result, events, hvalue⟩ :=
    (⟨text, .compiled c⟩ : Expression).valueSeen_faithful table ctx
  have hresult : (⟨text, .compiled c⟩ : Expression).value table ctx = result := by
    rw [Expression.value, hvalue]
  have hlog : evaluate .log c.program table ctx [] = (result, events) := by
    have hseen := hvalue _ .log []
    rw [Observer.seeAll_log, List.nil_append] at hseen
    exact hseen
  have hrecorded := evaluate_recorded t table ctx
  rw [← ht, hlog] at hrecorded
  rw [Expression.Observable, hresult]
  refine ⟨c.program, events, rfl, hrecorded, fun τ obs seen => ⟨hvalue τ obs seen, ?_⟩⟩
  simp only [Expression.solve, Expression.solveSeen, hvalue]
  cases result with
  | error err => rfl
  | ok x =>
    cases (⟨text, .compiled c⟩ : Expression).target? with
    | none => rfl
    | some i =>
      simp only
      cases (Cells.write table i x ctx : Except EvalError σ) with
      | error err => rfl
      | ok table' => rfl

theorem Utility.observable (u : Utility) (table : υ) (ctx : Context ο) : u.Observable table ctx where
  solve := by
    obtain ⟨result, table', events, h⟩ := u.solveSeen_faithful table ctx
    refine ⟨events, fun τ obs seen => ?_⟩
    rw [Utility.solve, h, h]
  trace alternative := by
    obtain ⟨result, table', events, h⟩ := u.traceSeen_faithful table ctx alternative
    refine ⟨events, fun τ obs seen => ?_⟩
    rw [Utility.trace, h, h]
  fill slots := by
    obtain ⟨result, slots', table', events, h⟩ := u.fill_faithful table ctx slots
    refine ⟨events, fun τ obs seen => ?_⟩
    rw [h, h]

theorem Model.Prepared.observable (p : Prepared) (ctx : Context Unit) : p.Observable ctx := by
  obtain ⟨result, p', events, h⟩ := p.runSeen_faithful ctx
  refine ⟨events, fun τ obs seen => ?_⟩
  rw [Model.Prepared.run, h, h]

/-- Looking on changes nothing: an expression that compiles, a utility and a model come to the same
and leave the same behind as when nobody does, and the steps of the expression are seen in order. -/
theorem compiled_observable {text : String} {e : Expression} {s s' : ρ}
    (hcompile : ofText? text s = (.ok e, s')) :
    (∀ (table : σ) (ctx : κ), e.Observable table ctx) ∧
      (∀ (u : Utility) (table : υ) (ctx : Context ο), u.Observable table ctx) ∧
      ∀ (p : Model.Prepared) (ctx : Context Unit), p.Observable ctx :=
  ⟨Expression.observable hcompile, Utility.observable, Model.Prepared.observable⟩

end Observable

/-- The program of the sum of two columns. -/
def sumProgram : Program := Tree.program (.operator .add (.load ⟨"a", 0⟩) (.load ⟨"b", 1⟩))

/-- Two columns with the given values. -/
def twoColumns (a b : Array Float) : DataTable := ⟨#[("a", a), ("b", b)], 1⟩

set_option maxRecDepth 20000 in
/-- A sum whose second operand is missing is seen up to the first. -/
theorem compiled_observable_missing : ∃ e : Expression,
    ofText? "a + b" (twoColumns #[] #[]) = (.ok e, twoColumns #[] #[]) ∧
      (∀ x, e.value (twoColumns #[x] #[]) 0 = .error (.cell "b" (.row 0 1)) ∧
        indices (e.valueSeen .log (twoColumns #[x] #[]) 0 []).2 = [0]) ∧
      (∀ (table : DataTable) (row : Nat), e.Observable table row) ∧
      (∀ (u : Utility) (v : Variables Unit) (ctx : Context Unit), u.Observable v ctx) ∧
      ∀ (p : Model.Prepared) (ctx : Context Unit), p.Observable ctx := by
  have hcompile : ofText? "a + b" (twoColumns #[] #[]) =
      (.ok ⟨"a + b", .compiled ⟨sumProgram, none⟩⟩, twoColumns #[] #[]) := by
    cbv
  have hevaluate : ∀ (x : Float) (τ : Type) (obs : Observer τ) (seen : τ),
      evaluate obs sumProgram (twoColumns #[x] #[]) 0 seen =
        (.error (.cell "b" (.row 0 1)), obs.see sumProgram ⟨0, .load 0, [], x⟩ seen) := by
    intro x τ obs seen
    refine finished_injective ?_
    rw [sumProgram, ← forwardPass_eq_evaluate]
    rfl
  refine ⟨_, hcompile, fun x => ⟨?_, ?_⟩, compiled_observable hcompile⟩
  · simp only [Expression.value, Expression.valueSeen, hevaluate]
  · simp only [Expression.valueSeen, hevaluate]
    rfl

end ChoiceModel
