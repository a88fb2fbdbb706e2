import ChoiceModel.Expression.Compile
import ChoiceModel.Proofs.Expression.Tree
import Mathlib.Data.List.Basic

/-! The output of a compilation as a list of pieces: sub-expressions that are complete, and matrix
groups that still wait for their subscript. They lie one after the other in the program, and the
pending operands are the places where they begin. -/

namespace ChoiceModel.Expression

/-- A part of the output that no operation has consumed. -/
inductive Piece where
  | tree (t : Tree Variable)
  | matrix (v : Variable)

namespace Piece

def slots : Piece → Fragment
  | tree t => t.slots
  | matrix v => .matrix v

def isMatrix : Piece → Bool
  | tree _ => false
  | matrix _ => true

theorem closed_slots (p : Piece) : p.slots.Closed := by
  cases p with
  | tree t => exact t.closed_slots
  | matrix v => exact Fragment.closed_matrix v

end Piece

namespace Output

def code : List Piece → List Slot
  | [] => []
  | p :: ps => code ps ++ p.slots (code ps).length

def starts : List Piece → List Nat
  | [] => []
  | _ :: ps => (code ps).length :: starts ps

/-- The output that consists of the given pieces, the last one first. -/
def ofPieces (ps : List Piece) : Output := ⟨⟨(code ps).toArray⟩, starts ps⟩

@[simp] theorem length_starts (ps : List Piece) : (starts ps).length = ps.length := by
  induction ps with
  | nil => rfl
  | cons p ps ih => simp only [starts, List.length_cons, ih]

@[simp] theorem operands_ofPieces (ps : List Piece) : (ofPieces ps).operands = starts ps := rfl

theorem code_append (taken ps : List Piece) :
    code (taken ++ ps) =
      code ps ++ Fragment.join (taken.reverse.map Piece.slots) (code ps).length := by
  induction taken with
  | nil => simp [Fragment.join]
  | cons p taken ih =>
    rw [List.cons_append, code, ih, List.reverse_cons, List.map_append, Fragment.join_append]
    simp only [List.map_cons, List.map_nil, Fragment.join_singleton, List.length_append,
      List.append_assoc]

theorem starts_append (taken ps : List Piece) :
    ∃ front, starts (taken ++ ps) = front ++ starts ps ∧ front.length = taken.length ∧
      (taken ≠ [] → front.getLast? = some (code ps).length) := by
  induction taken with
  | nil => exact ⟨[], rfl, rfl, fun h => (h rfl).elim⟩
  | cons p taken ih =>
    obtain ⟨front, hstarts, hlen, hlast⟩ := ih
    refine ⟨(code (taken ++ ps)).length :: front, ?_, ?_, fun _ => ?_⟩
    · simp only [List.cons_append, starts, hstarts]
    · simp only [List.length_cons, hlen]
    · cases taken with
      | nil =>
        cases List.length_eq_zero_iff.mp hlen
        rfl
      | cons q taken =>
        have hne : front ≠ [] := by
          rintro rfl
          simp at hlen
        rw [List.getLast?_cons_of_ne_nil hne]
        exact hlast (List.cons_ne_nil _ _)

theorem instruction?_ofPieces (above ps : List Piece) (p : Piece) :
    (ofPieces (above ++ p :: ps)).program.instruction? (code ps).length =
      (p.slots (code ps).length).head?.map Slot.instruction := by
  have hpos := p.closed_slots.length_pos (code ps).length
  simp only [Program.instruction?, ofPieces, code_append, code, List.getElem?_toArray,
    List.append_assoc]
  rw [List.getElem?_append_right (Nat.le_refl _), Nat.sub_self,
    List.getElem?_append_left hpos, List.head?_eq_getElem?]

theorem isMatrix_iff (above ps : List Piece) (p : Piece) :
    ((code ps).length + 1 == (code (p :: ps)).length &&
      (ofPieces (above ++ p :: ps)).isMatrixAt (code ps).length) = p.isMatrix := by
  simp only [isMatrixAt, instruction?_ofPieces, code, List.length_append]
  cases p with
  | matrix v => simp [Piece.slots, Fragment.matrix, Piece.isMatrix]
  | tree t =>
    simp only [Piece.slots, Piece.isMatrix, Bool.and_eq_false_iff]
    rcases hslots : t.slots (code ps).length with _ | ⟨slot, _ | ⟨next, rest⟩⟩
    · simp
    · right
      have hne := Tree.instruction_ne_matrix hslots
      simp only [List.head?_cons, Option.map_some]
      split
      · rename_i i heq
        exact (hne i (Option.some.inj heq)).elim
      · rfl
    · left
      simp

theorem hasBareMatrix_ofPieces (above taken ps : List Piece) :
    (ofPieces (above ++ (taken ++ ps))).hasBareMatrix (code (taken ++ ps)).length
      ((starts (taken ++ ps)).take taken.length) = taken.any Piece.isMatrix := by
  induction taken generalizing above with
  | nil => rfl
  | cons p taken ih =>
    have ih := ih (above ++ [p])
    rw [List.append_assoc, List.singleton_append] at ih
    simp only [List.cons_append, starts, List.length_cons, List.take_succ_cons, hasBareMatrix,
      List.any_cons, ih, isMatrix_iff]

theorem operands_pos (op : Opcode) : 0 < op.operands := by
  cases op with
  | operator op => exact Nat.succ_pos _
  | function f => cases f <;> decide
  | lookup => decide

/-- The output in which an operation has consumed the pieces `taken`. -/
def consume (op : Opcode) (taken ps : List Piece) : Output where
  program := ⟨(code (taken ++ ps) ++ [(⟨.apply op, (code ps).length, none⟩ : Slot)]).toArray⟩
  operands := (code ps).length :: starts ps

theorem append_ofPieces (op : Opcode) {taken : List Piece} (ps : List Piece) (hne : taken ≠ []) :
    emit.append (ofPieces (taken ++ ps)) op ((starts (taken ++ ps)).take taken.length)
      ((starts (taken ++ ps)).drop taken.length) = consume op taken ps := by
  obtain ⟨front, hstarts, hlen, hlast⟩ := starts_append taken ps
  rw [hstarts, ← hlen, List.take_left, List.drop_left]
  simp only [emit.append, hlast hne, Option.getD_some, consume, ofPieces, Program.push,
    List.push_toArray]

theorem consume_eq {op : Opcode} {taken : List Piece} (ps : List Piece) {t : Tree Variable}
    (h : t.slots = .apply op (taken.reverse.map Piece.slots)) :
    consume op taken ps = ofPieces (.tree t :: ps) := by
  simp only [consume, ofPieces, code, starts, Piece.slots, h, Fragment.apply, code_append,
    List.append_assoc]

theorem isLookup_ofPieces (above ps : List Piece) (subscript base : Piece) :
    (ofPieces (above ++ subscript :: base :: ps)).isLookup
      ((starts (subscript :: base :: ps)).take 2) = base.isMatrix := by
  have h := isMatrix_iff (above ++ [subscript]) ps base
  rw [List.append_assoc, List.singleton_append] at h
  rw [← h]
  simp only [starts, List.take, isLookup, Bool.beq_comm]

/-- Whether an operation may consume pieces, as many as it has operands, the last one first. -/
def accepts : Opcode → List Piece → Bool
  | .lookup, [_, base] => base.isMatrix
  | .lookup, _ => false
  | _, taken => !taken.any Piece.isMatrix

def refusal (op : Opcode) : Fault := if op = .lookup then .noMatrix else .bareMatrix

theorem emit_append {op : Opcode} {taken : List Piece} (h : taken.length = op.operands)
    (ps : List Piece) (position : Nat) :
    (ofPieces (taken ++ ps)).emit op position =
      if accepts op taken then .ok (consume op taken ps)
      else .error (.malformed (refusal op) position) := by
  have hne : taken ≠ [] := by
    rintro rfl
    exact (operands_pos op).ne h
  have htake : ((starts (taken ++ ps)).take taken.length).length = taken.length := by
    simp
  have hbare := hasBareMatrix_ofPieces [] taken ps
  have hsize : (ofPieces (taken ++ ps)).program.size = (code (taken ++ ps)).length := by
    simp only [ofPieces, Program.size, List.size_toArray]
  rw [List.nil_append] at hbare
  simp only [emit, operands_ofPieces, ← h, htake, Nat.lt_irrefl, if_false, hsize, hbare,
    append_ofPieces op ps hne]
  cases op with
  | lookup =>
    obtain ⟨subscript, base, rfl⟩ : ∃ subscript base, taken = [subscript, base] :=
      List.length_eq_two.mp h
    have hlookup := isLookup_ofPieces [] ps subscript base
    rw [List.nil_append] at hlookup
    simp only [accepts, refusal, if_true, ← hlookup]
    rfl
  | operator op => cases hm : taken.any Piece.isMatrix <;> simp [accepts, refusal, hm]
  | function f => cases hm : taken.any Piece.isMatrix <;> simp [accepts, refusal, hm]

theorem emit_eq_ok {op : Opcode} {ps : List Piece} {position : Nat} {out : Output}
    (h : (ofPieces ps).emit op position = .ok out) :
    ∃ taken rest, ps = taken ++ rest ∧ taken.length = op.operands ∧ accepts op taken = true ∧
      out = consume op taken rest := by
  have hle : op.operands ≤ ps.length := by
    by_contra hlt
    simp only [emit, operands_ofPieces, List.length_take, length_starts] at h
    rw [if_pos (by omega)] at h
    cases h
  have hlen := List.length_take_of_le hle
  rw [← List.take_append_drop op.operands ps, emit_append hlen] at h
  split at h
  · rename_i haccepts
    cases h
    exact ⟨_, _, (List.take_append_drop _ _).symm, hlen, haccepts, rfl⟩
  · cases h

theorem emit_operator (op : Operator) (a b : Tree Variable) (ps : List Piece) (position : Nat) :
    (ofPieces (.tree b :: .tree a :: ps)).emit (.operator op) position =
      .ok (ofPieces (.tree (.operator op a b) :: ps)) := by
  have hlen : [Piece.tree b, .tree a].length = (Opcode.operator op).operands := rfl
  have hslots : (Tree.operator op a b).slots =
      .apply (.operator op) ([Piece.tree b, .tree a].reverse.map Piece.slots) := rfl
  exact (emit_append hlen ps position).trans (congrArg Except.ok (consume_eq ps hslots))

theorem emit_lookup (v : Variable) (t : Tree Variable) (ps : List Piece) (position : Nat) :
    (ofPieces (.tree t :: .matrix v :: ps)).emit .lookup position =
      .ok (ofPieces (.tree (.lookup v t) :: ps)) := by
  have hlen : [Piece.tree t, .matrix v].length = Opcode.lookup.operands := rfl
  have hslots : (Tree.lookup v t).slots =
      .apply .lookup ([Piece.tree t, .matrix v].reverse.map Piece.slots) := rfl
  exact (emit_append hlen ps position).trans (congrArg Except.ok (consume_eq ps hslots))

theorem emit_call (f : Builtin) (args : Fin f.arity.operands → Tree Variable) (ps : List Piece)
    (position : Nat) :
    (ofPieces (((List.ofFn args).map Piece.tree).reverse ++ ps)).emit (.function f) position =
      .ok (ofPieces (.tree (.call f args) :: ps)) := by
  have hlen : ((List.ofFn args).map Piece.tree).reverse.length = (Opcode.function f).operands := by
    simp only [List.length_reverse, List.length_map, List.length_ofFn]
    rfl
  have hslots : (Tree.call f args).slots = .apply (.function f)
      (((List.ofFn args).map Piece.tree).reverse.reverse.map Piece.slots) := by
    rw [List.reverse_reverse, List.map_ofFn, List.map_ofFn]
    rfl
  have haccepts : accepts (.function f) ((List.ofFn args).map Piece.tree).reverse = true := by
    simp [accepts, Piece.isMatrix]
  rw [emit_append hlen, consume_eq ps hslots, if_pos haccepts]

theorem push_literal (ps : List Piece) (x : Float) :
    (ofPieces ps).push (.literal x) none = ofPieces (.tree (.literal x) :: ps) := by
  simp only [push, ofPieces, Program.push, Program.size, List.size_toArray, List.push_toArray,
    code, starts, Piece.slots, Tree.slots]

theorem push_load (ps : List Piece) (v : Variable) :
    (ofPieces ps).push (.load v.index) (some v.name) = ofPieces (.tree (.load v) :: ps) := by
  simp only [push, ofPieces, Program.push, Program.size, List.size_toArray, List.push_toArray,
    code, starts, Piece.slots, Tree.slots]

theorem push_matrix (ps : List Piece) (v : Variable) :
    (ofPieces ps).push (.matrix v.index) (some v.name) = ofPieces (.matrix v :: ps) := by
  simp only [push, ofPieces, Program.push, Program.size, List.size_toArray, List.push_toArray,
    code, starts, Piece.slots, Fragment.matrix]

end Output

end ChoiceModel.Expression
