import ChoiceModel.Expression.Error

/-! The two sides of variable access. A name becomes an index while an expression compiles; the
index is read or written while it is evaluated, in a context that the caller owns. -/

namespace ChoiceModel.Store

open Expression (EvalError)

/-- Data sources that turn names into indices. -/
class Resolver (σ : Type) where
  resolveRead : String → σ → Option Nat × σ
  resolveArray : String → σ → Option Nat × σ := resolveRead
  /-- The index for the target of an assignment, which may get a new place. -/
  resolveAssign : String → σ → Option Nat × σ

/-- Data sources whose indices can be read and written in contexts of type `κ`. -/
class Cells (σ κ : Type) where
  read : σ → Nat → κ → Except EvalError Float
  readIndexed : σ → Nat → Float → κ → Except EvalError Float
  write : σ → Nat → Float → κ → Except EvalError σ

end ChoiceModel.Store
