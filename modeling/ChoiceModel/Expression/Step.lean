import ChoiceModel.Expression.Program

/-! What an evaluation does, instruction by instruction, and the line that reports it. -/

namespace ChoiceModel.Expression

structure Step where
  index : Nat
  instruction : Instruction
  /-- The name, the number or the symbol of the instruction. -/
  label : String
  operands : List Float
  result : Float

def joinValues (l : Decimal.Layout) (xs : List Float) : String := ", ".intercalate (xs.map l.write)

def Step.equation (s : Step) : String :=
  let result := Decimal.plain.write s.result
  match s.instruction with
  | .literal _ => s.label ++ " = " ++ result
  | .load _ | .matrix _ => s.label ++ " -> " ++ result
  | .apply op =>
    if op.isCall then s.label ++ "(" ++ joinValues Decimal.plain s.operands ++ ") = " ++ result
    else
      match s.operands with
      | [a, b] =>
        Decimal.plain.write a ++ " " ++ s.label ++ " " ++ Decimal.plain.write b ++ " = " ++ result
      | operands =>
        s.label ++ " [" ++ joinValues Decimal.record operands ++ "] = " ++ result

def Step.line (s : Step) : String :=
  "[" ++ Text.alignRight 3 (toString s.index) ++ "] " ++ s.equation

structure Reduction where
  index : Nat
  instruction : Instruction
  operands : List Float
  result : Float

def Reduction.step (p : Program) (r : Reduction) : Step where
  index := r.index
  instruction := r.instruction
  label := p.render r.index
  operands := r.operands
  result := r.result

/-- Sees every reduction as it happens, and remembers what it wants in a `τ`. -/
structure Observer (τ : Type) where
  see : Program → Reduction → τ → τ

def Observer.silent : Observer Unit where
  see _ _ _ := ()

/-- Remembers the line of every reduction. -/
def Observer.lines : Observer (Array String) where
  see p r seen := seen.push (r.step p).line

end ChoiceModel.Expression
