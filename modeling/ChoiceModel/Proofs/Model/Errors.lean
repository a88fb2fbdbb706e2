import ChoiceModel.Model.Prepared

/-! Two ways through a model, up to its first error and past all of them. As long as nothing has failed
they leave the same variables behind, so the first error is the same in both. -/

namespace ChoiceModel.Model

open Store

/-- The errors start with the one that ended a computation, and there are none if it succeeded. -/
def Heads {α : Type} (es : List Error) : Except Error α → Prop
  | .ok _ => es = []
  | .error e => es.head? = some e

theorem Heads.eq_nil_iff {α : Type} {es : List Error} {r : Except Error α} (h : Heads es r) :
    es = [] ↔ ∃ a, r = .ok a := by
  cases r with
  | ok a => exact iff_of_true h ⟨a, rfl⟩
  | error e =>
    refine iff_of_false (fun hnil => ?_) fun ⟨a, ha⟩ => nomatch ha
    rw [Heads, hnil] at h
    cases h

theorem Heads.head?_eq_some_iff {α : Type} {es : List Error} {r : Except Error α} (h : Heads es r)
    (e : Error) : es.head? = some e ↔ r = .error e := by
  cases r with
  | ok a =>
    rw [Heads] at h
    rw [h]
    exact iff_of_false (fun he => nomatch he) fun he => nomatch he
  | error e' =>
    rw [Heads] at h
    rw [h, Option.some_inj, Except.error.injEq]

variable (m : Model)

/-- The variables differ only behind a formula that has failed. -/
theorem formulaErrors_heads (order : List String) (v : Variables Unit) :
    Heads (m.formulaErrors order v).1 (m.compileFormulas order v).1 ∧
      ((m.formulaErrors order v).1 = [] →
        (m.formulaErrors order v).2 = (m.compileFormulas order v).2) := by
  induction order generalizing v with
  | nil => exact ⟨rfl, fun _ => rfl⟩
  | cons name order ih =>
    rw [formulaErrors, compileFormulas]
    rcases m.compileFormula name v with ⟨r, v₁⟩
    cases r with
    | error e => exact ⟨rfl, fun h => nomatch h⟩
    | ok e =>
      obtain ⟨hheads, hsame⟩ := ih v₁
      simp only
      rcases hrest : m.compileFormulas order v₁ with ⟨r, v₂⟩
      rw [hrest] at hheads hsame
      cases r with
      | error e => exact ⟨hheads, hsame⟩
      | ok es => exact ⟨hheads, hsame⟩

theorem utilityErrors_heads (specs : List UtilitySpec) (v : Variables Unit) :
    Heads (utilityErrors specs v) (compileUtilities specs v).1 := by
  induction specs generalizing v with
  | nil => rfl
  | cons spec specs ih =>
    rw [utilityErrors, compileUtilities]
    rcases Utility.compile spec v with ⟨r, v₁⟩
    cases r with
    | error e => rfl
    | ok u =>
      have hheads := ih v₁
      simp only
      rcases hrest : compileUtilities specs v₁ with ⟨r, v₂⟩
      rw [hrest] at hheads
      cases r with
      | error e => exact hheads
      | ok us => exact hheads

theorem errors_heads : Heads m.errors m.prepare := by
  rw [errors, prepare]
  cases m.data with
  | error e => rfl
  | ok v =>
    cases m.formulaOrder with
    | error e => rfl
    | ok order =>
      obtain ⟨hheads, hsame⟩ := m.formulaErrors_heads order v
      simp only [bind, Except.bind]
      rcases hformulas : m.compileFormulas order v with ⟨r, w⟩
      rcases herrors : m.formulaErrors order v with ⟨es, w'⟩
      rw [hformulas, herrors] at hheads hsame
      cases r with
      | error e =>
        cases es with
        | nil => cases hheads
        | cons e' es => exact hheads
      | ok formulas =>
        -- nothing has failed so far, so the utilities meet the same variables
        obtain rfl : es = [] := hheads
        obtain rfl : w' = w := hsame rfl
        have hutilities := utilityErrors_heads m.utilities w'
        simp only [List.nil_append]
        rcases hcompiled : compileUtilities m.utilities w' with ⟨r, w''⟩
        rw [hcompiled] at hutilities
        cases r with
        | error e => exact hutilities
        | ok utilities => exact hutilities

/-- A model has no errors exactly if it can be prepared, and else the first of them is the one that
preparing it ends with. -/
theorem prepare_eq_error_iff_head? : (m.errors = [] ↔ ∃ p, m.prepare = .ok p) ∧
    ∀ e, m.prepare = .error e ↔ m.errors.head? = some e :=
  ⟨m.errors_heads.eq_nil_iff, fun e => (m.errors_heads.head?_eq_some_iff e).symm⟩

end ChoiceModel.Model
