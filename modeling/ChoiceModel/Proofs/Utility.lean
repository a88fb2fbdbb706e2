import ChoiceModel.Proofs.Expression.Assignment
import ChoiceModel.Proofs.Expression.Translation
import ChoiceModel.Utility

/-! Utilities among the other expressions of a table. Compiling one changes the table by resolutions
alone, and solving one by writes alone. -/

namespace ChoiceModel

open Expression Store

variable {σ κ ο τ : Type}

theorem Expression.ofText?_eq_ok_iff [Resolver σ] {text : String} {e : Expression} {s s' : σ} :
    ofText? text s = (.ok e, s') ↔
      ∃ c, compile text s = (.ok c, s') ∧ e = ⟨text, .compiled c⟩ := by
  unfold ofText? parse
  simp only
  rcases compile text s with ⟨r, s₁⟩
  cases r with
  | error cause => simp
  | ok c => simp [and_comm, eq_comm]

theorem Expression.ofText?_eq_error_iff [Resolver σ] {text : String} {cause : SyntaxError} {s s' : σ} :
    ofText? text s = (.error cause, s') ↔ compile text s = (.error cause, s') := by
  unfold ofText? parse
  simp only
  rcases compile text s with ⟨r, s₁⟩
  cases r with
  | error cause => simp
  | ok c => simp

theorem Expression.ofText?_resolving [Resolver σ] {R : σ → σ → Prop} (hR : Resolving R)
    (text : String) (s : σ) : R s (ofText? text s).2 := by
  have hcompile := compile_resolving hR text s
  unfold ofText? parse
  simp only
  rcases hcompiled : compile text s with ⟨r, s₁⟩
  rw [hcompiled] at hcompile
  cases r with
  | error cause => exact hcompile
  | ok c => exact hcompile

namespace Utility

section Compile

open Model (RowSpec UtilitySpec)

variable [Resolver σ] {R : σ → σ → Prop} (hR : Resolving R) (spec : UtilitySpec) (number : Nat)

include hR

theorem compileFilter_resolving (row : RowSpec) (s : σ) :
    R s (compileFilter spec number row s).2 := by
  unfold compileFilter
  simp only
  split
  · exact hR.refl s
  · have hfilter := ofText?_resolving hR (String.ofList (Text.trim (row.filter.getD "").toList)) s
    rcases hcompiled : ofText? (String.ofList (Text.trim (row.filter.getD "").toList)) s with ⟨r, s₁⟩
    rw [hcompiled] at hfilter
    cases r with
    | error cause => exact hfilter
    | ok filter =>
      simp only
      split
      · exact hfilter
      · exact hfilter

theorem compileRow_resolving (row : RowSpec) (s : σ) : R s (compileRow spec number row s).2 := by
  have hfilter := compileFilter_resolving hR spec number row s
  unfold compileRow
  rcases hcompiled : compileFilter spec number row s with ⟨r, s₁⟩
  rw [hcompiled] at hfilter
  cases r with
  | error e => exact hfilter
  | ok filter =>
    have hrow := hR.trans _ _ _ hfilter (ofText?_resolving hR row.text s₁)
    simp only
    rcases hexpression : ofText? row.text s₁ with ⟨r, s₂⟩
    rw [hexpression] at hrow
    cases r with
    | error cause => exact hrow
    | ok e =>
      simp only
      split
      · exact hrow
      · exact hrow

theorem compileRows_resolving (rows : List RowSpec) (s : σ) :
    R s (compileRows spec number rows s).2 := by
  induction rows generalizing number s with
  | nil => exact hR.refl s
  | cons row rows ih =>
    have hfirst := compileRow_resolving hR spec number row s
    rw [compileRows]
    rcases hcompiled : compileRow spec number row s with ⟨r, s₁⟩
    rw [hcompiled] at hfirst
    cases r with
    | error e => exact hfirst
    | ok r =>
      have hrest := hR.trans _ _ _ hfirst (ih (number + 1) s₁)
      simp only
      rcases hothers : compileRows spec (number + 1) rows s₁ with ⟨r, s₂⟩
      rw [hothers] at hrest
      cases r with
      | error e => exact hrest
      | ok rs => exact hrest

theorem compile_resolving (s : σ) : R s (compile spec s).2 := by
  have hrows := compileRows_resolving hR spec 1 spec.rows s
  unfold compile
  split
  · exact hR.refl s
  · rcases hcompiled : compileRows spec 1 spec.rows s with ⟨r, s₁⟩
    rw [hcompiled] at hrows
    cases r with
    | error e => exact hrows
    | ok rows => exact hrows

end Compile

section Translate

open Model (RowSpec UtilitySpec)

variable {ρ : Type} [Resolver σ] [Resolver ρ] {φ : σ → ρ} (hφ : Translation φ) (spec : UtilitySpec)
  (number : Nat)

include hφ

theorem compileFilter_translation (row : RowSpec) (s : σ) :
    compileFilter spec number row (φ s) = Prod.map id φ (compileFilter spec number row s) := by
  unfold compileFilter
  simp only
  split
  · rfl
  · rw [hφ.ofText?]
    rcases ofText? (String.ofList (Text.trim (row.filter.getD "").toList)) s with ⟨_ | e, s'⟩
    · rfl
    · simp only [Prod.map, id]
      split <;> rfl

theorem compileRow_translation (row : RowSpec) (s : σ) :
    compileRow spec number row (φ s) = Prod.map id φ (compileRow spec number row s) := by
  rw [compileRow, compileRow, compileFilter_translation hφ]
  rcases compileFilter spec number row s with ⟨_ | filter, s'⟩
  · rfl
  · simp only [Prod.map, id]
    rw [hφ.ofText?]
    rcases ofText? row.text s' with ⟨_ | e, s''⟩
    · rfl
    · simp only [Prod.map, id]
      cases checkRow spec number row e <;> rfl

theorem compileRows_translation (rows : List RowSpec) (s : σ) :
    compileRows spec number rows (φ s) = Prod.map id φ (compileRows spec number rows s) := by
  induction rows generalizing number s with
  | nil => rfl
  | cons row rows ih =>
    rw [compileRows, compileRows, compileRow_translation hφ]
    rcases compileRow spec number row s with ⟨_ | r, s'⟩
    · rfl
    · simp only [Prod.map, id]
      rw [ih]
      rcases compileRows spec (number + 1) rows s' with ⟨_ | rs, s''⟩ <;> rfl

theorem compile_translation (s : σ) : compile spec (φ s) = Prod.map id φ (compile spec s) := by
  unfold compile
  split
  · rfl
  · rw [compileRows_translation hφ]
    rcases compileRows spec 1 spec.rows s with ⟨_ | rows, s'⟩ <;> rfl

end Translate

end Utility

/-- A relation between a table and what any writes make of it. -/
structure Written (κ : Type) [Cells σ κ] (R : σ → σ → Prop) : Prop where
  refl : ∀ t, R t t
  trans : ∀ t u w, R t u → R u w → R t w
  write : ∀ t i x (ctx : κ) u, Cells.write t i x ctx = .ok u → R t u

theorem Store.Variables.written_sameNames : Written (Context ο) (@SameNames ο) where
  refl := SameNames.refl
  trans _ _ _ := SameNames.trans
  write _ _ _ _ _ := write_sameNames

theorem Expression.solveSeen_written [Cells σ κ] {R : σ → σ → Prop} (hR : Written κ R)
    (obs : Observer τ) (e : Expression) (table : σ) (ctx : κ) (seen : τ) :
    R table (e.solveSeen obs table ctx seen).2.1 := by
  unfold solveSeen
  split
  · exact hR.refl table
  · split
    · exact hR.refl table
    · split
      · rename_i hwrite
        exact hR.write _ _ _ _ _ hwrite
      · exact hR.refl table

namespace Utility

variable [Cells σ (Context ο)] {R : σ → σ → Prop} (hR : Written (Context ο) R) (obs : Observer τ)

include hR

theorem Row.term_written (row : Row) (k : Nat) (table : σ) (ctx : Context ο) (seen : τ) :
    R table (row.term obs k table ctx seen).2.1 := by
  unfold Row.term
  split
  · exact hR.refl table
  · exact hR.refl table
  · rename_i seen₁ _
    have hsolve := solveSeen_written hR obs row.expression table ctx seen₁
    simp only
    split
    · exact hR.refl table
    · rcases hsolved : row.expression.solveSeen obs table ctx seen₁ with ⟨r, table₁, seen₂⟩
      rw [hsolved] at hsolve
      cases r with
      | error e => exact hsolve
      | ok x => exact hsolve

theorem sumRows_written (u : Utility) (k : Nat) (ctx : Context ο) (number : Nat) (rows : List Row)
    (sum : Float) (table : σ) (seen : τ) :
    R table (sumRows obs u k ctx number rows sum table seen).2.1 := by
  induction rows generalizing number sum table seen with
  | nil => exact hR.refl table
  | cons row rows ih =>
    have hterm := row.term_written hR obs k table ctx seen
    rw [sumRows]
    rcases hrow : row.term obs k table ctx seen with ⟨r, table₁, seen₁⟩
    rw [hrow] at hterm
    rcases r with ⟨e, cause⟩ | _ | x
    · exact hterm
    · exact hR.trans _ _ _ hterm (ih _ _ _ _)
    · exact hR.trans _ _ _ hterm (ih _ _ _ _)

theorem fillFrom_written (u : Utility) (ctx : Context ο) (k : Nat) (slots : List Float) (table : σ)
    (seen : τ) : R table (fillFrom obs u ctx k slots table seen).2.2.1 := by
  induction slots generalizing k table seen with
  | nil => exact hR.refl table
  | cons slot slots ih =>
    have hfirst := sumRows_written hR obs u k { ctx with alternative := k + 1 } 1 u.rows 0.0 table seen
    rw [fillFrom, ofAlternative]
    rcases hsum : sumRows obs u k { ctx with alternative := k + 1 } 1 u.rows 0.0 table seen with
      ⟨r, table₁, seen₁⟩
    rw [hsum] at hfirst
    cases r with
    | error e => exact hfirst
    | ok x => exact hR.trans _ _ _ hfirst (ih (k + 1) table₁ seen₁)

theorem solveSeen_written (u : Utility) (table : σ) (ctx : Context ο) (seen : τ) :
    R table (u.solveSeen obs table ctx seen).2.1 := by
  have hfill : R table (u.fill obs table ctx (u.alternatives.map fun _ => 0.0) seen).2.2.1 := by
    rw [fill]
    split
    · exact hR.refl table
    · exact fillFrom_written hR obs u ctx 0 _ table seen
  rw [solveSeen]
  rcases hfilled : u.fill obs table ctx (u.alternatives.map fun _ => 0.0) seen with
    ⟨r, utilities, table₁, seen₁⟩
  rw [hfilled] at hfill
  cases r with
  | error e => exact hfill
  | ok _ => exact hfill

theorem traceSeen_written (u : Utility) (table : σ) (ctx : Context ο) (alternative : Nat) (seen : τ) :
    R table (u.traceSeen obs table ctx alternative seen).2.1 := by
  unfold traceSeen
  split
  · exact hR.refl table
  · exact sumRows_written hR obs u _ _ 1 u.rows 0.0 table seen

end Utility

end ChoiceModel
