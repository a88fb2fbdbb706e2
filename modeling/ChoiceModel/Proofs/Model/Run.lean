import ChoiceModel.Model.Prepared
import ChoiceModel.Proofs.Utility

/-! Runs of a model. A relation that every write keeps holds between the variables before and after a
run, whether the run succeeds or not; in particular no run resolves a name. -/

namespace ChoiceModel

open Expression Store

variable {ο τ : Type}

namespace Model.Prepared

variable {R : Variables Unit → Variables Unit → Prop} (hR : Written (Context Unit) R)
  (obs : Observer τ)

include hR

theorem solveFormulas_written (ctx : Context Unit) (formulas : List (String × Expression))
    (values : List (String × Float)) (v : Variables Unit) (seen : τ) :
    R v (solveFormulas obs ctx formulas values v seen).2.1 := by
  induction formulas generalizing values v seen with
  | nil => exact hR.refl v
  | cons formula formulas ih =>
    obtain ⟨name, e⟩ := formula
    have hfirst := e.solveSeen_written hR obs v ctx seen
    rw [solveFormulas]
    rcases hsolved : e.solveSeen obs v ctx seen with ⟨r, v₁, seen₁⟩
    rw [hsolved] at hfirst
    cases r with
    | error cause => exact hfirst
    | ok x => exact hR.trans _ _ _ hfirst (ih _ v₁ seen₁)

theorem solveUtilities_written (ctx : Context Unit) (utilities : List Utility) (v : Variables Unit)
    (seen : τ) : R v (solveUtilities obs ctx utilities v seen).2.1 := by
  induction utilities generalizing v seen with
  | nil => exact hR.refl v
  | cons u utilities ih =>
    have hfirst := u.solveSeen_written hR obs v ctx seen
    rw [solveUtilities]
    rcases hsolved : u.solveSeen obs v ctx seen with ⟨r, v₁, seen₁⟩
    rw [hsolved] at hfirst
    cases r with
    | error e => exact hfirst
    | ok values =>
      have hrest := hR.trans _ _ _ hfirst (ih v₁ seen₁)
      simp only
      rcases hothers : solveUtilities obs ctx utilities v₁ seen₁ with ⟨r', v₂, seen₂⟩
      rw [hothers] at hrest
      cases r' with
      | error e => exact hrest
      | ok results => exact hrest

theorem runSeen_written (p : Prepared) (ctx : Context Unit) (seen : τ) :
    R p.data (p.runSeen obs ctx seen).2.1.data := by
  have hformulas := solveFormulas_written hR obs ctx p.formulas [] p.data seen
  rw [runSeen]
  rcases hsolved : solveFormulas obs ctx p.formulas [] p.data seen with ⟨r, v, seen₁⟩
  rw [hsolved] at hformulas
  cases r with
  | error e => exact hformulas
  | ok values =>
    have hutilities := hR.trans _ _ _ hformulas (solveUtilities_written hR obs ctx p.utilities v seen₁)
    simp only
    rcases hothers : solveUtilities obs ctx p.utilities v seen₁ with ⟨r', v', seen₂⟩
    rw [hothers] at hutilities
    cases r' with
    | error e => exact hutilities
    | ok results => exact hutilities

omit hR

theorem runSeen_data (p : Prepared) (ctx : Context Unit) (seen : τ) :
    (p.runSeen obs ctx seen).2.1 = { p with data := (p.runSeen obs ctx seen).2.1.data } := by
  rw [runSeen]
  rcases solveFormulas obs ctx p.formulas [] p.data seen with ⟨r, v, seen₁⟩
  cases r with
  | error e => rfl
  | ok values =>
    simp only
    rcases solveUtilities obs ctx p.utilities v seen₁ with ⟨r', v', seen₂⟩
    cases r' with
    | error e => rfl
    | ok results => rfl

/-- A model after runs in some contexts, of which any may have failed. -/
def after (p : Prepared) (history : List (Context Unit)) : Prepared :=
  history.foldl (fun p ctx => (p.run ctx).2) p

/-- Runs change nothing but the data. -/
theorem after_data (p : Prepared) (history : List (Context Unit)) :
    p.after history = { p with data := (p.after history).data } := by
  induction history generalizing p with
  | nil => rfl
  | cons ctx history ih =>
    have hrest := ih (p.run ctx).2
    have hfirst : (p.run ctx).2 = { p with data := (p.run ctx).2.data } :=
      runSeen_data .silent p ctx ()
    rw [hfirst] at hrest
    rw [after, List.foldl_cons, hfirst]
    exact hrest

theorem after_formulas (p : Prepared) (history : List (Context Unit)) :
    (p.after history).formulas = p.formulas := by
  rw [after_data]

theorem after_sameNames (p : Prepared) (history : List (Context Unit)) :
    p.data.SameNames (p.after history).data := by
  induction history generalizing p with
  | nil => exact .refl p.data
  | cons ctx history ih => exact (runSeen_written Variables.written_sameNames .silent p ctx ()).trans (ih _)

end Model.Prepared

end ChoiceModel
