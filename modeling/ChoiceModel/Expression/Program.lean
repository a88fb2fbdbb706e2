import ChoiceModel.Text.Blank
import ChoiceModel.Expression.Error

/-! Programs: the instructions of an expression in post-order. Each slot records where the
sub-expression that it completes begins. -/

namespace ChoiceModel.Expression

inductive Instruction where
  | literal (x : Float)
  /-- A variable, read while the program is evaluated. -/
  | load (index : Nat)
  /-- A matrix group, consumed by the lookup after it and never read alone. -/
  | matrix (index : Nat)
  | apply (op : Opcode)

/-- An instruction, the index of the first instruction of its sub-expression, and the name that a
variable has in the text. -/
structure Slot where
  instruction : Instruction
  start : Nat
  name : Option String

structure Program where
  slots : Array Slot := #[]

namespace Program

def size (p : Program) : Nat := p.slots.size

def push (p : Program) (slot : Slot) : Program := ⟨p.slots.push slot⟩

@[simp] theorem size_push (p : Program) (slot : Slot) : (p.push slot).size = p.size + 1 := by
  simp [size, push]

def instruction? (p : Program) (i : Nat) : Option Instruction := p.slots[i]?.map Slot.instruction

def startOf (p : Program) (i : Nat) : Nat := (p.slots[i]?.map Slot.start).getD 0

def nameOf? (p : Program) (i : Nat) : Option String := p.slots[i]?.bind Slot.name

end Program

def Slot.render (s : Slot) : String :=
  match s.instruction with
  | .literal x => Decimal.plain.write x
  | .load i | .matrix i => s.name.getD ("#" ++ toString i)
  | .apply op => op.symbol

/-- The text of one slot: the number, the name or the symbol. -/
def Program.render (p : Program) (i : Nat) : String := (p.slots[i]?.map Slot.render).getD "?"

def Instruction.kind : Instruction → String
  | literal _ => "literal"
  | load _ => "var"
  | matrix _ => "matrix"
  | apply op => if op.isCall then "call" else "op"

def Slot.line (i : Nat) (s : Slot) : String :=
  Text.alignRight 4 (toString i) ++ "  " ++ Text.alignLeft 8 s.instruction.kind
    ++ Text.alignLeft 16 s.render ++ s!"(from {s.start})\n"

def Program.listing (p : Program) : String :=
  String.join (p.slots.toList.zipIdx.map fun (s, i) => s.line i)

end ChoiceModel.Expression
