import ChoiceModel.Expression.Program
import Mathlib.Data.List.OfFn

/-! Expression trees and their post-order. A tree over bare names is what a text is about; a tree
over `Variable`, where every name has got its index, is the program that stands for it. -/

namespace ChoiceModel.Expression

structure Variable where
  name : String
  index : Nat

/-- An expression without regard to how it is written. -/
inductive Tree (ν : Type) where
  | literal (x : Float)
  | load (v : ν)
  | operator (op : Operator) (left right : Tree ν)
  | call (f : Builtin) (args : Fin f.arity.operands → Tree ν)
  /-- A matrix group, looked up by the value of a subscript. -/
  | lookup (group : ν) (subscript : Tree ν)

/-- Slots that may begin at any index of a program. -/
abbrev Fragment := Nat → List Slot

namespace Fragment

def join : List Fragment → Fragment
  | [], _ => []
  | f :: fs, first => f first ++ join fs (first + (f first).length)

def apply (op : Opcode) (operands : List Fragment) : Fragment := fun first =>
  join operands first ++ [⟨.apply op, first, none⟩]

/-- The place of a matrix group in front of its subscript. -/
def matrix (v : Variable) : Fragment := fun first => [⟨.matrix v.index, first, some v.name⟩]

theorem join_append (fs gs : List Fragment) (first : Nat) :
    join (fs ++ gs) first = join fs first ++ join gs (first + (join fs first).length) := by
  induction fs generalizing first with
  | nil => simp only [List.nil_append, join, List.length_nil, Nat.add_zero]
  | cons f fs ih =>
    simp only [List.cons_append, join, ih, List.append_assoc, List.length_append, Nat.add_assoc]

theorem join_singleton (f : Fragment) (first : Nat) : join [f] first = f first := by
  simp only [join, List.append_nil]

/-- The last slot of a fragment records where the fragment begins. -/
def Closed (f : Fragment) : Prop :=
  ∀ first, ∃ body slot, f first = body ++ [slot] ∧ slot.start = first

theorem closed_apply (op : Opcode) (operands : List Fragment) : (apply op operands).Closed :=
  fun _ => ⟨_, _, rfl, rfl⟩

theorem closed_matrix (v : Variable) : (matrix v).Closed := fun _ => ⟨[], _, rfl, rfl⟩

theorem Closed.length_pos {f : Fragment} (h : f.Closed) (first : Nat) :
    0 < (f first).length := by
  obtain ⟨body, slot, heq, -⟩ := h first
  simp [heq]

theorem apply_eq_singleton {op : Opcode} {operands : List Fragment} {first : Nat}
    {slot : Slot} (h : apply op operands first = [slot]) :
    slot.instruction = .apply op := by
  have hlast := congrArg List.getLast? h
  simp only [apply, List.getLast?_concat, List.getLast?_singleton, Option.some.injEq] at hlast
  rw [← hlast]

end Fragment

namespace Tree

variable {ν μ : Type}

def map (g : ν → μ) : Tree ν → Tree μ
  | literal x => literal x
  | load v => load (g v)
  | operator op left right => operator op (left.map g) (right.map g)
  | call f args => call f fun i => (args i).map g
  | lookup group subscript => lookup (g group) (subscript.map g)

/-- The variables of a tree from left to right, each with whether a subscript follows it. -/
def occurrences : Tree ν → List (ν × Bool)
  | literal _ => []
  | load v => [(v, false)]
  | operator _ left right => left.occurrences ++ right.occurrences
  | call _ args => (List.ofFn fun i => (args i).occurrences).flatten
  | lookup group subscript => (group, true) :: subscript.occurrences

def indices (t : Tree Variable) : List Nat := t.occurrences.map fun v => v.1.index

/-- The post-order of a tree: operands from left to right, then their operation. Every slot records
where the sub-expression that it completes begins. -/
def slots : Tree Variable → Fragment
  | literal x => fun first => [⟨.literal x, first, none⟩]
  | load v => fun first => [⟨.load v.index, first, some v.name⟩]
  | operator op left right => .apply (.operator op) [left.slots, right.slots]
  | call f args => .apply (.function f) (List.ofFn fun i => (args i).slots)
  | lookup group subscript => .apply .lookup [.matrix group, subscript.slots]

def program (t : Tree Variable) : Program := ⟨(t.slots 0).toArray⟩

theorem closed_slots (t : Tree Variable) : t.slots.Closed := by
  cases t with
  | literal x => exact fun _ => ⟨[], _, rfl, rfl⟩
  | load v => exact fun _ => ⟨[], _, rfl, rfl⟩
  | operator op left right => exact Fragment.closed_apply _ _
  | call f args => exact Fragment.closed_apply _ _
  | lookup group subscript => exact Fragment.closed_apply _ _

theorem instruction_ne_matrix {t : Tree Variable} {first : Nat} {slot : Slot}
    (h : t.slots first = [slot]) (i : Nat) : slot.instruction ≠ .matrix i := by
  cases t with
  | literal x => cases h; simp
  | load v => cases h; simp
  | operator op left right => simp [Fragment.apply_eq_singleton h]
  | call f args => simp [Fragment.apply_eq_singleton h]
  | lookup group subscript => simp [Fragment.apply_eq_singleton h]

end Tree

end ChoiceModel.Expression
