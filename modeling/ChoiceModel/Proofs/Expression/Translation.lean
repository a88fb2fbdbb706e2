import ChoiceModel.Expression.Basic
import Mathlib.Data.Prod.Basic

/-! Compilation against two data sources that resolve every name to the same index. It has the same outcome
against both, and leaves behind what they correspond in. -/

namespace ChoiceModel.Expression

open Store Text

/-- A map between data sources that resolve every name to the same index. -/
structure Translation {σ ρ : Type} [Resolver σ] [Resolver ρ] (φ : σ → ρ) : Prop where
  read : ∀ name s, Resolver.resolveRead name (φ s) = Prod.map id φ (Resolver.resolveRead name s)
  array : ∀ name s, Resolver.resolveArray name (φ s) = Prod.map id φ (Resolver.resolveArray name s)
  assign : ∀ name s, Resolver.resolveAssign name (φ s) = Prod.map id φ (Resolver.resolveAssign name s)

namespace Translation

variable {σ ρ : Type} [Resolver σ] [Resolver ρ] {φ : σ → ρ} (hφ : Translation φ)

include hφ

theorem nameStep (previous next : Option Token) (name : String) (position : Nat) (b : Builder) (s : σ) :
    nameStep previous next name position b (φ s) =
      Prod.map id φ (nameStep previous next name position b s) := by
  unfold Expression.nameStep
  split
  · split <;> rfl
  · split
    · rfl
    · split
      · rw [hφ.array]
        rcases Resolver.resolveArray name s with ⟨_ | i, s'⟩ <;> rfl
      · rw [hφ.read]
        rcases Resolver.resolveRead name s with ⟨_ | i, s'⟩ <;> rfl

theorem step (previous next : Option Token) (l : Lexeme) (b : Builder) (s : σ) :
    step previous next l b (φ s) = Prod.map id φ (step previous next l b s) := by
  unfold Expression.step
  split
  · rfl
  · exact hφ.nameStep ..
  · rfl

theorem run (stop : Nat) (previous : Option Token) (ls : List Lexeme) (b : Builder) (s : σ) :
    run stop previous ls b (φ s) = Prod.map id φ (run stop previous ls b s) := by
  induction ls generalizing previous b s with
  | nil => rfl
  | cons l ls ih =>
    rw [Expression.run, Expression.run, hφ.step]
    rcases Expression.step previous (ls.head?.map Lexeme.token) l b s with ⟨_ | b', s'⟩
    · rfl
    · exact ih _ b' s'

theorem compileValue (cs : List Char) (s : σ) :
    compileValue cs (φ s) = Prod.map id φ (compileValue cs s) := by
  unfold Expression.compileValue
  split
  · rfl
  · exact hφ.run ..

/-- A text compiles to the same program and the same target, or fails with the same error. -/
theorem compile (text : String) (s : σ) : compile text (φ s) = Prod.map id φ (compile text s) := by
  unfold Expression.compile
  split
  · rw [hφ.compileValue]
    rcases Expression.compileValue text.toList s with ⟨_ | p, s'⟩ <;> rfl
  · rename_i target value _
    rw [hφ.compileValue]
    rcases Expression.compileValue value s with ⟨_ | p, s'⟩
    · rfl
    · simp only [Prod.map, id]
      split
      · rfl
      · rw [hφ.assign]
        rcases Resolver.resolveAssign (String.ofList (trim target)) s' with ⟨_ | i, s''⟩ <;> rfl

theorem ofText? (text : String) (s : σ) : ofText? text (φ s) = Prod.map id φ (ofText? text s) := by
  unfold Expression.ofText? parse
  simp only [hφ.compile]
  rcases Expression.compile text s with ⟨_ | c, s'⟩ <;> rfl

end Translation

end ChoiceModel.Expression
