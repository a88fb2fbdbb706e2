import ChoiceModel.Decimal.Arithmetic
import ChoiceModel.Expression.Step
import ChoiceModel.Store.Access

/-! Evaluation of a program from its last instruction: the recorded starts tell where the operands
of an operation end, and operands are evaluated from left to right. -/

namespace ChoiceModel.Expression

open Decimal Store

/-- The values that one evaluation can store. -/
def storeCapacity : Nat := 32

/-- The state of an evaluation: the values stored so far, the first one first, and what has been
observed. -/
structure Machine (τ : Type) where
  stored : List Float
  seen : τ

/-- The value at a position counted from 1, whose fraction does not matter. -/
def storedAt (stored : List Float) (position : Float) : Except EvalError Float :=
  let slot := truncate position
  if slot ≥ 1.0 && slot ≤ Float.ofNat stored.length then
    .ok (stored.getD (slot.toUInt64.toNat - 1) 0.0)
  else .error (.underflow position stored.length)

/-- The value of a function, and the stored values after it. -/
def Builtin.eval (f : Builtin) (a b c : Float) (stored : List Float) :
    Except EvalError (Float × List Float) :=
  match f with
  | .max => .ok (larger a b, stored)
  | .min => .ok (smaller a b, stored)
  | .ln => .ok (a.log, stored)
  | .exp => .ok (a.exp, stored)
  | .abs => .ok (a.abs, stored)
  | .sign => .ok (signum a, stored)
  | .int => .ok (a.floor, stored)
  | .sqrt => .ok (a.sqrt, stored)
  | .put =>
    if stored.length == storeCapacity then .error (.overflow storeCapacity)
    else .ok (a, stored ++ [a])
  | .get => (storedAt stored a).map fun x => (x, stored)
  | .choose => .ok (if a > 0.0 then b else c, stored)

/-- The last instruction of each of `count` operands, of which the last one ends before `cursor`,
and where the first one starts; `index` is the operation. -/
def Program.endsBefore (p : Program) (index : Nat) :
    Nat → Nat → Except EvalError (List Nat × Nat)
  | 0, cursor => .ok ([], cursor)
  | _ + 1, 0 => .error (.invalid index .missingOperand)
  | count + 1, last + 1 =>
    let start := p.startOf last
    if start > last then .error (.invalid last .startAfterEnd)
    else
      match p.endsBefore index count start with
      | .ok (ends, first) => .ok (ends ++ [last], first)
      | .error e => .error e

def Program.operandEnds (p : Program) (index count : Nat) : Except EvalError (List Nat) :=
  match p.endsBefore index count index with
  | .ok (ends, first) =>
    if first == p.startOf index then .ok ends else .error (.invalid index .startMismatch)
  | .error e => .error e

theorem Program.endsBefore_lt {p : Program} {index count cursor first : Nat} {ends : List Nat}
    (h : p.endsBefore index count cursor = .ok (ends, first)) : ∀ e ∈ ends, e < cursor := by
  induction count generalizing cursor ends with
  | zero =>
    simp only [endsBefore, Except.ok.injEq, Prod.mk.injEq] at h
    simp [← h.1]
  | succ count ih =>
    cases cursor with
    | zero => simp [endsBefore] at h
    | succ last =>
      simp only [endsBefore] at h
      split at h
      · cases h
      · rename_i hle
        split at h
        · rename_i ends' first' heq
          cases h
          intro e he
          rcases List.mem_append.mp he with he | he
          · have := ih heq e he
            omega
          · simp only [List.mem_singleton] at he
            omega
        · cases h

theorem Program.operandEnds_lt {p : Program} {index count : Nat} {ends : List Nat}
    (h : p.operandEnds index count = .ok ends) : ∀ e ∈ ends, e < index := by
  simp only [operandEnds] at h
  split at h
  · rename_i heq
    split at h
    · cases h
      exact endsBefore_lt heq
    · cases h
  · cases h

variable {σ κ τ : Type} [Cells σ κ]

def Machine.see (m : Machine τ) (obs : Observer τ) (p : Program) (r : Reduction) : Machine τ :=
  { m with seen := obs.see p r m.seen }

mutual

def reduce (obs : Observer τ) (p : Program) (table : σ) (ctx : κ) (i : Nat) (m : Machine τ) :
    Except EvalError Float × Machine τ :=
  match p.instruction? i with
  | none => (.error (.invalid i .pastEnd), m)
  | some (.literal x) => (.ok x, m.see obs p ⟨i, .literal x, [], x⟩)
  | some (.load index) =>
    match Cells.read table index ctx with
    | .ok x => (.ok x, m.see obs p ⟨i, .load index, [], x⟩)
    | .error e => (.error e, m)
  | some (.matrix _) => (.error (.invalid i .strayMatrix), m)
  | some (.apply op) =>
    match h : p.operandEnds i op.operands with
    | .error e => (.error e, m)
    | .ok ends =>
      match op with
      | .lookup =>
        match p.instruction? (ends.getD 0 0) with
        | some (.matrix index) =>
          match reduceAll obs p table ctx i (ends.drop 1)
              (fun e he => Program.operandEnds_lt h e (List.mem_of_mem_drop he)) m with
          | (.error e, m) => (.error e, m)
          | (.ok args, m) =>
            match Cells.readIndexed table index (args.getD 0 0.0) ctx with
            | .ok x => (.ok x, m.see obs p ⟨i, .apply .lookup, args, x⟩)
            | .error e => (.error e, m)
        | _ => (.error (.invalid i .noMatrix), m)
      | .operator op =>
        match reduceAll obs p table ctx i ends (Program.operandEnds_lt h) m with
        | (.error e, m) => (.error e, m)
        | (.ok args, m) =>
          let x := op.eval (args.getD 0 0.0) (args.getD 1 0.0)
          (.ok x, m.see obs p ⟨i, .apply (.operator op), args, x⟩)
      | .function f =>
        match reduceAll obs p table ctx i ends (Program.operandEnds_lt h) m with
        | (.error e, m) => (.error e, m)
        | (.ok args, m) =>
          match f.eval (args.getD 0 0.0) (args.getD 1 0.0) (args.getD 2 0.0) m.stored with
          | .ok (x, stored) =>
            (.ok x, { m with stored }.see obs p ⟨i, .apply (.function f), args, x⟩)
          | .error e => (.error e, m)
termination_by (i + 1, 0)

/-- The values of sub-expressions that end before `bound`, from left to right. -/
def reduceAll (obs : Observer τ) (p : Program) (table : σ) (ctx : κ) (bound : Nat)
    (ends : List Nat) (h : ∀ e ∈ ends, e < bound) (m : Machine τ) :
    Except EvalError (List Float) × Machine τ :=
  match ends with
  | [] => (.ok [], m)
  | e :: rest =>
    have : e < bound := h e (List.mem_cons_self ..)
    match reduce obs p table ctx e m with
    | (.error e, m) => (.error e, m)
    | (.ok x, m) =>
      match reduceAll obs p table ctx bound rest
          (fun e he => h e (List.mem_cons_of_mem _ he)) m with
      | (.error e, m) => (.error e, m)
      | (.ok xs, m) => (.ok (x :: xs), m)
termination_by (bound, ends.length)
decreasing_by
  · simp only [List.length_cons, Prod.lex_def]
    omega
  · simp [Prod.lex_def]

end

def evaluate (obs : Observer τ) (p : Program) (table : σ) (ctx : κ) (seen : τ) :
    Except EvalError Float × τ :=
  match p.size with
  | 0 => (.error (.invalid 0 .emptyStream), seen)
  | last + 1 =>
    let (result, m) := reduce obs p table ctx last ⟨[], seen⟩
    (result, m.seen)

end ChoiceModel.Expression
