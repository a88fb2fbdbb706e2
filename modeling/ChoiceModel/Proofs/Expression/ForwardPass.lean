import ChoiceModel.Expression.Evaluate
import ChoiceModel.Proofs.Expression.Tiling
import ChoiceModel.Store.DataTable
import Mathlib

/-! Evaluation as one pass over a program, from its first instruction to its last, with a stack. The
evaluation itself begins at the last instruction and looks for the operands in front of it; on the
post-order of a tree both do the same in the same order. -/

namespace ChoiceModel.Expression

open Store

/-- What a forward pass keeps on its stack. -/
inductive Item where
  | value (x : Float)
  /-- A matrix group that waits for its subscript. -/
  | group (index : Nat)

inductive Halt where
  /-- The stack lacks the operands of an operation. -/
  | stuck
  | raised (e : EvalError)

def popValues : Nat → List Item → Option (List Float × List Item)
  | 0, stack => some ([], stack)
  | n + 1, .value x :: stack => (popValues n stack).map fun (xs, stack) => (xs ++ [x], stack)
  | _, _ => none

section Pass

variable {σ κ τ : Type} [Cells σ κ] (obs : Observer τ) (p : Program) (table : σ) (ctx : κ)

def forwardStep (i : Nat) (instruction : Instruction) (stack : List Item) (m : Machine τ) :
    Except Halt (List Item) × Machine τ :=
  match instruction with
  | .literal x => (.ok (.value x :: stack), m.see obs p ⟨i, .literal x, [], x⟩)
  | .load index =>
    match Cells.read table index ctx with
    | .ok x => (.ok (.value x :: stack), m.see obs p ⟨i, .load index, [], x⟩)
    | .error e => (.error (.raised e), m)
  | .matrix index => (.ok (.group index :: stack), m)
  | .apply .lookup =>
    match stack with
    | .value y :: .group index :: stack =>
      match Cells.readIndexed table index y ctx with
      | .ok x => (.ok (.value x :: stack), m.see obs p ⟨i, .apply .lookup, [y], x⟩)
      | .error e => (.error (.raised e), m)
    | _ => (.error .stuck, m)
  | .apply (.operator op) =>
    match popValues (Opcode.operator op).operands stack with
    | some (args, stack) =>
      let x := op.eval (args.getD 0 0.0) (args.getD 1 0.0)
      (.ok (.value x :: stack), m.see obs p ⟨i, .apply (.operator op), args, x⟩)
    | none => (.error .stuck, m)
  | .apply (.function f) =>
    match popValues (Opcode.function f).operands stack with
    | some (args, stack) =>
      match f.eval (args.getD 0 0.0) (args.getD 1 0.0) (args.getD 2 0.0) m.stored with
      | .ok (x, stored) =>
        (.ok (.value x :: stack), { m with stored }.see obs p ⟨i, .apply (.function f), args, x⟩)
      | .error e => (.error (.raised e), m)
    | none => (.error .stuck, m)

/-- The slots of a program from the index `i` on, up to the first error. -/
def forward : Nat → List Slot → List Item → Machine τ → Except Halt (List Item) × Machine τ
  | _, [], stack, m => (.ok stack, m)
  | i, slot :: slots, stack, m =>
    match forwardStep obs p table ctx i slot.instruction stack m with
    | (.ok stack, m) => forward (i + 1) slots stack m
    | (.error e, m) => (.error e, m)

/-- The stack at the end of a program, and what the observer remembers. -/
def forwardPass (seen : τ) : Except Halt (List Item) × τ :=
  let (result, m) := forward obs p table ctx 0 p.slots.toList [] ⟨[], seen⟩
  (result, m.seen)

theorem forward_append (i : Nat) (xs ys : List Slot) (stack : List Item) (m : Machine τ) :
    forward obs p table ctx i (xs ++ ys) stack m =
      match forward obs p table ctx i xs stack m with
      | (.ok stack, m) => forward obs p table ctx (i + xs.length) ys stack m
      | (.error e, m) => (.error e, m) := by
  induction xs generalizing i stack m with
  | nil => rfl
  | cons slot xs ih =>
    rw [List.cons_append, forward, forward]
    rcases forwardStep obs p table ctx i slot.instruction stack m with ⟨result, m₁⟩
    cases result with
    | error e => rfl
    | ok stack₁ =>
      simp only [ih, List.length_cons]
      rw [Nat.add_assoc, Nat.add_comm 1]

theorem forward_singleton (i : Nat) (slot : Slot) (stack : List Item) (m : Machine τ) :
    forward obs p table ctx i [slot] stack m =
      forwardStep obs p table ctx i slot.instruction stack m := by
  rw [forward]
  rcases forwardStep obs p table ctx i slot.instruction stack m with ⟨result, m₁⟩
  cases result with
  | error e => rfl
  | ok stack₁ => rfl

end Pass

theorem popValues_map_value (ys : List Float) (stack : List Item) :
    popValues ys.length (ys.map .value ++ stack) = some (ys.reverse, stack) := by
  induction ys with
  | nil => rfl
  | cons y ys ih =>
    simp only [List.length_cons, List.map_cons, List.cons_append, popValues, ih, Option.map_some,
      List.reverse_cons]

theorem group_mem_of_popValues {n g : Nat} {stack rest : List Item} {xs : List Float}
    (h : popValues n stack = some (xs, rest)) (hg : .group g ∈ rest) : .group g ∈ stack := by
  induction n generalizing stack xs with
  | zero =>
    cases h
    exact hg
  | succ n ih =>
    cases stack with
    | nil => cases h
    | cons item stack =>
      cases item with
      | group i => cases h
      | value x =>
        rw [popValues] at h
        obtain ⟨⟨ys, rest'⟩, hpop, heq⟩ := Option.map_eq_some_iff.mp h
        cases heq
        exact List.mem_cons_of_mem _ (ih hpop)

/-- What can go wrong with the stored values. -/
def EvalError.IsOfStore (e : EvalError) : Prop :=
  (∃ position depth, e = .underflow position depth) ∨ ∃ capacity, e = .overflow capacity

theorem Builtin.eval_eq_error {f : Builtin} {a b c : Float} {stored : List Float} {e : EvalError}
    (h : f.eval a b c stored = .error e) : e.IsOfStore := by
  cases f with
  | put =>
    rw [Builtin.eval] at h
    split at h
    · cases h
      exact .inr ⟨_, rfl⟩
    · cases h
  | get =>
    rw [Builtin.eval, storedAt] at h
    split at h
    · cases h
    · cases h
      exact .inl ⟨_, _, rfl⟩
  | max => cases h
  | min => cases h
  | ln => cases h
  | exp => cases h
  | abs => cases h
  | sign => cases h
  | int => cases h
  | sqrt => cases h
  | choose => cases h

/-- The slots `slots` are those of a program from the index `first` on. -/
def Program.Holds (p : Program) (first : Nat) (slots : List Slot) : Prop :=
  ∀ i < slots.length, p.slots[first + i]? = slots[i]?

namespace Program.Holds

variable {p : Program} {first : Nat}

theorem left {xs ys : List Slot} (h : p.Holds first (xs ++ ys)) : p.Holds first xs := by
  intro i hi
  rw [h i (by rw [List.length_append]; exact Nat.lt_add_right _ hi), List.getElem?_append_left hi]

theorem right {xs ys : List Slot} (h : p.Holds first (xs ++ ys)) :
    p.Holds (first + xs.length) ys := by
  intro i hi
  have hlt : xs.length + i < (xs ++ ys).length := by
    rw [List.length_append]
    exact Nat.add_lt_add_left hi _
  rw [Nat.add_assoc, h _ hlt, List.getElem?_append_right (Nat.le_add_right _ _),
    Nat.add_sub_cancel_left]

theorem slot {slot : Slot} (h : p.Holds first [slot]) : p.slots[first]? = some slot :=
  h 0 Nat.zero_lt_one

theorem instruction? {slot : Slot} (h : p.Holds first [slot]) :
    p.instruction? first = some slot.instruction := by
  rw [Program.instruction?, h.slot, Option.map_some]

theorem startOf {slot : Slot} (h : p.Holds first [slot]) : p.startOf first = slot.start := by
  rw [Program.startOf, h.slot, Option.map_some, Option.getD_some]

end Program.Holds

theorem Tree.holds_program (t : Tree Variable) : t.program.Holds 0 (t.slots 0) := by
  intro i _
  rw [Tree.program, Nat.zero_add, List.getElem?_toArray]

namespace Fragment

def ends : List Fragment → Nat → List Nat
  | [], _ => []
  | f :: fs, first => (first + (f first).length - 1) :: ends fs (first + (f first).length)

theorem ends_append_singleton (fs : List Fragment) (f : Fragment) (first : Nat) :
    ends (fs ++ [f]) first = ends fs first ++
      [first + (join fs first).length + (f (first + (join fs first).length)).length - 1] := by
  induction fs generalizing first with
  | nil => rfl
  | cons g fs ih =>
    simp only [List.cons_append, ends, ih, join, List.length_append, Nat.add_assoc]

theorem length_ends (fs : List Fragment) (first : Nat) : (ends fs first).length = fs.length := by
  induction fs generalizing first with
  | nil => rfl
  | cons f fs ih => rw [ends, List.length_cons, List.length_cons, ih]

theorem endsBefore_join {p : Program} {fs : List Fragment} {first : Nat} (index : Nat)
    (hclosed : ∀ f ∈ fs, f.Closed) (hholds : p.Holds first (join fs first)) :
    p.endsBefore index fs.length (first + (join fs first).length) = .ok (ends fs first, first) := by
  induction fs using List.reverseRecOn with
  | nil => rfl
  | append_singleton fs f ih =>
    rw [join_append, join_singleton] at hholds ⊢
    have ih := ih (fun g hg => hclosed g (List.mem_append_left _ hg)) hholds.left
    obtain ⟨body, slot, hslots, hstart⟩ :=
      hclosed f (List.mem_append_right _ List.mem_cons_self) (first + (join fs first).length)
    have hlast := hholds.right
    rw [hslots] at hlast
    have hstartOf := hlast.right.startOf
    rw [hstart] at hstartOf
    have hcursor : first + (join fs first ++ (body ++ [slot])).length =
        first + (join fs first).length + body.length + 1 := by
      simp only [List.length_append, List.length_singleton, Nat.add_assoc]
    have hlen : (fs ++ [f]).length = fs.length + 1 := List.length_append
    rw [ends_append_singleton, hslots, hcursor, hlen, Program.endsBefore, hstartOf,
      if_neg (Nat.not_lt_of_le (Nat.le_add_right _ _)), ih]
    simp only [List.length_append, List.length_singleton, ← Nat.add_assoc, Nat.add_sub_cancel]

theorem operandEnds_apply {p : Program} {op : Opcode} {operands : List Fragment} {first : Nat}
    (hclosed : ∀ f ∈ operands, f.Closed) (hlen : operands.length = op.operands)
    (hholds : p.Holds first (apply op operands first)) :
    p.operandEnds (first + (join operands first).length) op.operands =
      .ok (ends operands first) := by
  rw [apply] at hholds
  have hstart := hholds.right.startOf
  rw [Program.operandEnds, ← hlen, endsBefore_join _ hclosed hholds.left, hstart]
  simp only [beq_self_eq_true, if_true]

end Fragment

section Reduce

variable {σ κ τ : Type} [Cells σ κ] {obs : Observer τ} {p : Program} {table : σ} {ctx : κ}

theorem reduce_literal {i : Nat} {x : Float} (h : p.instruction? i = some (.literal x))
    (m : Machine τ) :
    reduce obs p table ctx i m = (.ok x, m.see obs p ⟨i, .literal x, [], x⟩) := by
  rw [reduce]
  simp only [h]

theorem reduce_load {i index : Nat} (h : p.instruction? i = some (.load index)) (m : Machine τ) :
    reduce obs p table ctx i m =
      match Cells.read table index ctx with
      | .ok x => (.ok x, m.see obs p ⟨i, .load index, [], x⟩)
      | .error e => (.error e, m) := by
  rw [reduce]
  cases hread : (Cells.read table index ctx : Except EvalError Float) with
  | ok x => simp only [h, hread]
  | error e => simp only [h, hread]

theorem reduce_operator {i : Nat} {op : Operator} {ends : List Nat}
    (h : p.instruction? i = some (.apply (.operator op)))
    (hends : p.operandEnds i (Opcode.operator op).operands = .ok ends) (m : Machine τ) :
    reduce obs p table ctx i m =
      match reduceAll obs p table ctx i ends (Program.operandEnds_lt hends) m with
      | (.error e, m) => (.error e, m)
      | (.ok args, m) =>
        let x := op.eval (args.getD 0 0.0) (args.getD 1 0.0)
        (.ok x, m.see obs p ⟨i, .apply (.operator op), args, x⟩) := by
  rw [reduce]
  simp only [h]
  split
  · rename_i e herror
    rw [hends] at herror
    cases herror
  · rename_i ends' hends'
    obtain rfl : ends = ends' := Except.ok.inj (hends.symm.trans hends')
    rfl

theorem reduce_function {i : Nat} {f : Builtin} {ends : List Nat}
    (h : p.instruction? i = some (.apply (.function f)))
    (hends : p.operandEnds i (Opcode.function f).operands = .ok ends) (m : Machine τ) :
    reduce obs p table ctx i m =
      match reduceAll obs p table ctx i ends (Program.operandEnds_lt hends) m with
      | (.error e, m) => (.error e, m)
      | (.ok args, m) =>
        match f.eval (args.getD 0 0.0) (args.getD 1 0.0) (args.getD 2 0.0) m.stored with
        | .ok (x, stored) =>
          (.ok x, { m with stored }.see obs p ⟨i, .apply (.function f), args, x⟩)
        | .error e => (.error e, m) := by
  rw [reduce]
  simp only [h]
  split
  · rename_i e herror
    rw [hends] at herror
    cases herror
  · rename_i ends' hends'
    obtain rfl : ends = ends' := Except.ok.inj (hends.symm.trans hends')
    rfl

theorem reduce_lookup {i index base last : Nat} (h : p.instruction? i = some (.apply .lookup))
    (hends : p.operandEnds i Opcode.lookup.operands = .ok [base, last])
    (hbase : p.instruction? base = some (.matrix index)) (m : Machine τ) :
    reduce obs p table ctx i m =
      match reduce obs p table ctx last m with
      | (.error e, m) => (.error e, m)
      | (.ok y, m) =>
        match Cells.readIndexed table index y ctx with
        | .ok x => (.ok x, m.see obs p ⟨i, .apply .lookup, [y], x⟩)
        | .error e => (.error e, m) := by
  rw [reduce]
  simp only [h]
  split
  · rename_i e herror
    rw [hends] at herror
    cases herror
  · rename_i ends' hends'
    obtain rfl : [base, last] = ends' := Except.ok.inj (hends.symm.trans hends')
    simp only [List.getD_cons_zero, hbase, List.drop_succ_cons, List.drop_zero, reduceAll]
    rcases reduce obs p table ctx last m with ⟨result, m₁⟩
    cases result with
    | error e => rfl
    | ok y => rfl

theorem length_of_reduceAll {bound : Nat} {ends : List Nat} {h : ∀ e ∈ ends, e < bound}
    {m m' : Machine τ} {xs : List Float}
    (hok : reduceAll obs p table ctx bound ends h m = (.ok xs, m')) : xs.length = ends.length := by
  induction ends generalizing m xs with
  | nil =>
    rw [reduceAll] at hok
    cases hok
    rfl
  | cons e ends ih =>
    rw [reduceAll] at hok
    split at hok
    · cases hok
    · split at hok
      · cases hok
      · rename_i hrest
        cases hok
        rw [List.length_cons, List.length_cons, ih hrest]

/-- The outcome of an evaluation as that of a forward pass on a stack. -/
def onStack (stack : List Item) :
    Except EvalError Float × Machine τ → Except Halt (List Item) × Machine τ
  | (.ok x, m) => (.ok (.value x :: stack), m)
  | (.error e, m) => (.error (.raised e), m)

def allOnStack (stack : List Item) :
    Except EvalError (List Float) × Machine τ → Except Halt (List Item) × Machine τ
  | (.ok xs, m) => (.ok (xs.reverse.map .value ++ stack), m)
  | (.error e, m) => (.error (.raised e), m)

variable (obs p table ctx) in
/-- A forward pass over the slots of a fragment pushes what the evaluation of the last of them
returns. -/
def Fragment.Simulates (f : Fragment) : Prop :=
  ∀ first stack m, p.Holds first (f first) →
    forward obs p table ctx first (f first) stack m =
      onStack stack (reduce obs p table ctx (first + (f first).length - 1) m)

theorem forward_join {fs : List Fragment} (hfs : ∀ f ∈ fs, f.Simulates obs p table ctx)
    {first : Nat} (hholds : p.Holds first (Fragment.join fs first)) (bound : Nat)
    (hbound : ∀ e ∈ Fragment.ends fs first, e < bound) (stack : List Item) (m : Machine τ) :
    forward obs p table ctx first (Fragment.join fs first) stack m =
      allOnStack stack (reduceAll obs p table ctx bound (Fragment.ends fs first) hbound m) := by
  induction fs generalizing first stack m with
  | nil =>
    simp only [Fragment.ends, reduceAll]
    rfl
  | cons f fs ih =>
    have hfirst := hfs f List.mem_cons_self first stack m hholds.left
    -- for every stack, since the first fragment has pushed a value that is not known yet
    have hrest := fun stack m => ih (fun g hg => hfs g (List.mem_cons_of_mem _ hg)) hholds.right
      (fun e he => hbound e (List.mem_cons_of_mem _ he)) stack m
    simp only [Fragment.join, forward_append, hfirst, Fragment.ends, reduceAll]
    rcases reduce obs p table ctx (first + (f first).length - 1) m with ⟨result, m₁⟩
    cases result with
    | error e => rfl
    | ok x =>
      simp only [onStack, hrest]
      rcases reduceAll obs p table ctx bound (Fragment.ends fs (first + (f first).length)) _ m₁ with
        ⟨result, m₂⟩
      cases result with
      | error e => rfl
      | ok xs =>
        simp only [allOnStack, List.reverse_cons, List.map_append, List.append_assoc]
        rfl

theorem simulates_apply {op : Opcode} {fs : List Fragment} (hop : op ≠ .lookup)
    (hlen : fs.length = op.operands) (hclosed : ∀ f ∈ fs, f.Closed)
    (hfs : ∀ f ∈ fs, f.Simulates obs p table ctx) :
    (Fragment.apply op fs).Simulates obs p table ctx := by
  intro first stack m hholds
  have hends := Fragment.operandEnds_apply hclosed hlen hholds
  rw [Fragment.apply] at hholds ⊢
  have hinstruction := hholds.right.instruction?
  have hlast : first + (Fragment.join fs first ++
      [(⟨.apply op, first, none⟩ : Slot)]).length - 1 =
        first + (Fragment.join fs first).length := by
    simp only [List.length_append, List.length_singleton, ← Nat.add_assoc, Nat.add_sub_cancel]
  rw [hlast, forward_append, forward_join hfs hholds.left _ (Program.operandEnds_lt hends)]
  -- the operands are on the stack in reverse, and are popped back into their order
  have hpop : ∀ xs : List Float, xs.length = (Fragment.ends fs first).length → ∀ stack,
      popValues op.operands (xs.reverse.map .value ++ stack) = some (xs, stack) := by
    intro xs hxs stack
    have hcount : op.operands = xs.reverse.length := by
      rw [List.length_reverse, hxs, ← hlen, Fragment.length_ends]
    rw [hcount, popValues_map_value, List.reverse_reverse]
  cases op with
  | lookup => exact (hop rfl).elim
  | operator op =>
    rw [reduce_operator hinstruction hends]
    rcases hall : reduceAll obs p table ctx _ (Fragment.ends fs first) _ m with ⟨result, m₁⟩
    cases result with
    | error e => rfl
    | ok xs =>
      simp only [allOnStack, forward_singleton, forwardStep]
      rw [hpop xs (length_of_reduceAll hall) stack]
      rfl
  | function f =>
    rw [reduce_function hinstruction hends]
    rcases hall : reduceAll obs p table ctx _ (Fragment.ends fs first) _ m with ⟨result, m₁⟩
    cases result with
    | error e => rfl
    | ok xs =>
      simp only [allOnStack, forward_singleton, forwardStep]
      rw [hpop xs (length_of_reduceAll hall) stack]
      simp only
      rcases f.eval (xs.getD 0 0.0) (xs.getD 1 0.0) (xs.getD 2 0.0) m₁.stored with e | ⟨x, stored⟩
      · rfl
      · rfl

/-- A matrix group and its subscript; the group is read by the lookup alone. -/
theorem simulates_lookup (v : Variable) {f : Fragment} (hclosed : f.Closed)
    (hf : f.Simulates obs p table ctx) :
    (Fragment.apply .lookup [.matrix v, f]).Simulates obs p table ctx := by
  intro first stack m hholds
  have hall : ∀ g ∈ [Fragment.matrix v, f], g.Closed := by
    rintro g (_ | ⟨_, _ | ⟨_, hnil⟩⟩)
    · exact Fragment.closed_matrix v
    · exact hclosed
    · cases hnil
  have hends := Fragment.operandEnds_apply hall rfl hholds
  -- `forward_join` does not apply: the group is no fragment that evaluates to a value
  have hslots : Fragment.apply .lookup [.matrix v, f] first =
      (⟨.matrix v.index, first, some v.name⟩ : Slot) ::
        (f (first + 1) ++ [(⟨.apply .lookup, first, none⟩ : Slot)]) := by
    simp only [Fragment.apply, Fragment.join, Fragment.matrix, List.append_nil,
      List.cons_append, List.nil_append, List.length_singleton]
  have hjoin : (Fragment.join [.matrix v, f] first).length = 1 + (f (first + 1)).length := by
    simp only [Fragment.join, Fragment.matrix, List.append_nil, List.length_append,
      List.length_singleton]
  have hendsList : Fragment.ends [.matrix v, f] first =
      [first, first + 1 + (f (first + 1)).length - 1] := rfl
  rw [hjoin, hendsList, ← Nat.add_assoc] at hends
  rw [hslots] at hholds ⊢
  rw [← List.singleton_append] at hholds
  have hbase := hholds.left.instruction?
  have hoperation := hholds.right.right.instruction?
  rw [List.length_singleton] at hoperation
  have hlast : first + ((⟨.matrix v.index, first, some v.name⟩ : Slot) ::
      (f (first + 1) ++ [(⟨.apply .lookup, first, none⟩ : Slot)])).length - 1 =
        first + 1 + (f (first + 1)).length := by
    simp only [List.length_cons, List.length_append, List.length_nil]
    omega
  rw [hlast, reduce_lookup hoperation hends hbase, forward, forwardStep]
  simp only [forward_append]
  rw [hf (first + 1) _ m hholds.right.left]
  rcases reduce obs p table ctx (first + 1 + (f (first + 1)).length - 1) m with ⟨result, m₁⟩
  cases result with
  | error e => rfl
  | ok y =>
    simp only [onStack, forward_singleton, forwardStep]
    rcases (Cells.readIndexed table v.index y ctx : Except EvalError Float) with e | x
    · rfl
    · rfl

theorem Tree.simulates (t : Tree Variable) : t.slots.Simulates obs p table ctx := by
  induction t with
  | literal x =>
    intro first stack m hholds
    have hinstruction := hholds.instruction?
    rw [slots, forward_singleton, List.length_singleton, Nat.add_sub_cancel,
      reduce_literal hinstruction]
    rfl
  | load v =>
    intro first stack m hholds
    have hinstruction := hholds.instruction?
    rw [slots, forward_singleton, List.length_singleton, Nat.add_sub_cancel,
      reduce_load hinstruction, forwardStep]
    rcases (Cells.read table v.index ctx : Except EvalError Float) with e | x
    · rfl
    · rfl
  | operator op left right ihLeft ihRight =>
    refine simulates_apply Opcode.noConfusion rfl ?_ ?_
    · rintro f (_ | ⟨_, _ | ⟨_, hnil⟩⟩)
      · exact left.closed_slots
      · exact right.closed_slots
      · cases hnil
    · rintro f (_ | ⟨_, _ | ⟨_, hnil⟩⟩)
      · exact ihLeft
      · exact ihRight
      · cases hnil
  | call f args ih =>
    refine simulates_apply Opcode.noConfusion List.length_ofFn ?_ ?_
    · intro g hg
      obtain ⟨i, rfl⟩ := List.mem_ofFn.mp hg
      exact (args i).closed_slots
    · intro g hg
      obtain ⟨i, rfl⟩ := List.mem_ofFn.mp hg
      exact ih i
  | lookup group subscript ih => exact simulates_lookup group subscript.closed_slots ih

/-- The errors that an evaluation can end with. -/
inductive Program.Raises (p : Program) (table : σ) (ctx : κ) : EvalError → Prop where
  | read {slot : Slot} {i : Nat} {e : EvalError} : slot ∈ p.slots.toList →
    slot.instruction = .load i → Cells.read table i ctx = .error e → p.Raises table ctx e
  | readIndexed {slot : Slot} {i : Nat} {y : Float} {e : EvalError} : slot ∈ p.slots.toList →
    slot.instruction = .matrix i → Cells.readIndexed table i y ctx = .error e →
    p.Raises table ctx e
  | store {e : EvalError} : e.IsOfStore → p.Raises table ctx e

/-- Every group that waits on a stack stands in the program. -/
def Program.Waiting (p : Program) (stack : List Item) : Prop :=
  ∀ g, .group g ∈ stack → ∃ slot ∈ p.slots.toList, slot.instruction = .matrix g

theorem Program.waiting_nil (p : Program) : p.Waiting [] := fun _ hg => (List.not_mem_nil hg).elim

theorem Program.Waiting.value {stack : List Item} (h : p.Waiting stack) (x : Float) :
    p.Waiting (.value x :: stack) := by
  intro g hg
  rcases List.mem_cons.mp hg with hg | hg
  · cases hg
  · exact h g hg

theorem Program.Waiting.popValues {n : Nat} {stack rest : List Item} {xs : List Float}
    (h : p.Waiting stack) (hpop : popValues n stack = some (xs, rest)) : p.Waiting rest :=
  fun g hg => h g (group_mem_of_popValues hpop hg)

theorem forwardStep_waiting {i : Nat} {slot : Slot} {stack stack' : List Item} {m m' : Machine τ}
    (hslot : slot ∈ p.slots.toList) (hstack : p.Waiting stack)
    (h : forwardStep obs p table ctx i slot.instruction stack m = (.ok stack', m')) :
    p.Waiting stack' := by
  unfold forwardStep at h
  split at h
  · cases h
    exact hstack.value _
  · split at h
    · cases h
      exact hstack.value _
    · cases h
  · rename_i heq
    cases h
    intro g hg
    rcases List.mem_cons.mp hg with hg | hg
    · cases hg
      exact ⟨slot, hslot, heq⟩
    · exact hstack g hg
  · split at h
    · split at h
      · cases h
        have hrest : p.Waiting _ := fun g hg =>
          hstack g (List.mem_cons_of_mem _ (List.mem_cons_of_mem _ hg))
        exact hrest.value _
      · cases h
    · cases h
  · split at h
    · rename_i hpop
      cases h
      exact (hstack.popValues hpop).value _
    · cases h
  · split at h
    · rename_i hpop
      split at h
      · cases h
        exact (hstack.popValues hpop).value _
      · cases h
    · cases h

theorem forwardStep_raised {i : Nat} {slot : Slot} {stack : List Item} {m m' : Machine τ}
    {e : EvalError} (hslot : slot ∈ p.slots.toList) (hstack : p.Waiting stack)
    (h : forwardStep obs p table ctx i slot.instruction stack m = (.error (.raised e), m')) :
    p.Raises table ctx e := by
  unfold forwardStep at h
  split at h
  · cases h
  · rename_i heq
    split at h
    · cases h
    · rename_i hread
      cases h
      exact .read hslot heq hread
  · cases h
  · split at h
    · split at h
      · cases h
      · rename_i hread
        cases h
        obtain ⟨other, hother, heq⟩ := hstack _ (List.mem_cons_of_mem _ List.mem_cons_self)
        exact .readIndexed hother heq hread
    · cases h
  · split at h
    · cases h
    · cases h
  · split at h
    · split at h
      · cases h
      · rename_i heval
        cases h
        exact .store (Builtin.eval_eq_error heval)
    · cases h

theorem forward_raised {i : Nat} {slots : List Slot} {stack : List Item} {m m' : Machine τ}
    {e : EvalError} (hslots : ∀ slot ∈ slots, slot ∈ p.slots.toList) (hstack : p.Waiting stack)
    (h : forward obs p table ctx i slots stack m = (.error (.raised e), m')) :
    p.Raises table ctx e := by
  induction slots generalizing i stack m with
  | nil => cases h
  | cons slot slots ih =>
    have hslot := hslots slot List.mem_cons_self
    rw [forward] at h
    split at h
    · rename_i hstep
      exact ih (fun other hother => hslots other (List.mem_cons_of_mem _ hother))
        (forwardStep_waiting hslot hstack hstep) h
    · rename_i e m₁ hstep
      cases h
      exact forwardStep_raised hslot hstack hstep

end Reduce

section Evaluate

variable {σ κ τ : Type} [Cells σ κ]

/-- What a forward pass ends with when the value or the first error is `outcome`: one value is left
on the stack. -/
def finished : Except EvalError Float × τ → Except Halt (List Item) × τ
  | (.ok x, seen) => (.ok [.value x], seen)
  | (.error e, seen) => (.error (.raised e), seen)

theorem finished_injective : Function.Injective (@finished τ) := by
  rintro ⟨r, seen⟩ ⟨r', seen'⟩ h
  cases r with
  | error e =>
    cases r' with
    | error e' =>
      cases h
      rfl
    | ok x' => cases h
  | ok x =>
    cases r' with
    | error e' => cases h
    | ok x' =>
      cases h
      rfl

theorem forwardPass_eq_evaluate (obs : Observer τ) (t : Tree Variable) (table : σ) (ctx : κ)
    (seen : τ) :
    forwardPass obs t.program table ctx seen = finished (evaluate obs t.program table ctx seen) := by
  have hsize : t.program.size = (t.slots 0).length := List.size_toArray ..
  have hpos := t.closed_slots.length_pos 0
  obtain ⟨last, hlast⟩ : ∃ last, (t.slots 0).length = last + 1 :=
    ⟨_, (Nat.sub_add_cancel hpos).symm⟩
  have hforward : forward obs t.program table ctx 0 (t.slots 0) [] ⟨[], seen⟩ = _ :=
    t.simulates 0 [] ⟨[], seen⟩ t.holds_program
  rw [hlast, Nat.zero_add, Nat.add_sub_cancel] at hforward
  have hlist : t.program.slots.toList = t.slots 0 := rfl
  rw [forwardPass, hlist, hforward, evaluate, hsize, hlast]
  simp only
  rcases reduce obs t.program table ctx last ⟨[], seen⟩ with ⟨result, m⟩
  cases result with
  | error e => rfl
  | ok x => rfl

theorem evaluate_load (name : String) (i : Nat) (table : σ) (ctx : κ) :
    evaluate .silent (Tree.program (.load ⟨name, i⟩)) table ctx () = (Cells.read table i ctx, ()) := by
  refine finished_injective ?_
  rw [← forwardPass_eq_evaluate, forwardPass]
  have hslots : (Tree.program (.load ⟨name, i⟩)).slots.toList = [⟨.load i, 0, some name⟩] := rfl
  rw [hslots, forward_singleton, forwardStep]
  cases Cells.read table i ctx with
  | error e => rfl
  | ok x => rfl

theorem evaluate_raises {obs : Observer τ} {t : Tree Variable} {table : σ} {ctx : κ} {seen : τ}
    {e : EvalError} (h : (evaluate obs t.program table ctx seen).1 = .error e) :
    t.program.Raises table ctx e := by
  have hpass := forwardPass_eq_evaluate obs t table ctx seen
  rcases hevaluate : evaluate obs t.program table ctx seen with ⟨result, seen'⟩
  rw [hevaluate] at hpass h
  obtain rfl : result = .error e := h
  have hfirst : (forward obs t.program table ctx 0 t.program.slots.toList [] ⟨[], seen⟩).1 =
      .error (.raised e) := congrArg Prod.fst hpass
  rcases hforward : forward obs t.program table ctx 0 t.program.slots.toList [] ⟨[], seen⟩ with
    ⟨outcome, m⟩
  rw [hforward] at hfirst
  obtain rfl : outcome = .error (.raised e) := hfirst
  exact forward_raised (fun _ hslot => hslot) t.program.waiting_nil hforward

/-- Whatever compiles is evaluated as by a forward pass over it, to the same value or the same first
error, and an error about the instructions can only be one that a table raises. -/
theorem compiled_forwardPass {ρ : Type} [Resolver ρ] {text : String} {c : Compiled} {s s' : ρ}
    (h : compile text s = (.ok c, s')) (obs : Observer τ) (table : σ) (ctx : κ) (seen : τ) :
    forwardPass obs c.program table ctx seen =
        finished (evaluate obs c.program table ctx seen) ∧
      ∀ i fault, (evaluate obs c.program table ctx seen).1 = .error (.invalid i fault) →
        (∃ index, Cells.read table index ctx = .error (.invalid i fault)) ∨
          ∃ index y, Cells.readIndexed table index y ctx = .error (.invalid i fault) := by
  obtain ⟨t, ht⟩ := compile_eq_tree h
  have hpass := forwardPass_eq_evaluate obs t table ctx seen
  rw [← ht] at hpass
  refine ⟨hpass, fun i fault hinvalid => ?_⟩
  rw [ht] at hinvalid
  cases evaluate_raises hinvalid with
  | read _ _ hread => exact .inl ⟨_, hread⟩
  | readIndexed _ _ hread => exact .inr ⟨_, _, hread⟩
  | store hstore =>
    obtain ⟨_, _, heq⟩ | ⟨_, heq⟩ := hstore
    · cases heq
    · cases heq

set_option maxRecDepth 20000 in
/-- A text in postfix order, which compiles as well. -/
theorem compiled_forwardPass_postfix :
    ∃ c, (compile "a b +" (⟨#[("a", #[]), ("b", #[])], 0⟩ : DataTable)).1 = .ok c ∧
      forwardPass .silent c.program (⟨#[("a", #[1.0]), ("b", #[2.0])], 1⟩ : DataTable) 0 () =
        finished (evaluate .silent c.program
          (⟨#[("a", #[1.0]), ("b", #[2.0])], 1⟩ : DataTable) 0 ()) := by
  have hcompile : compile "a b +" (⟨#[("a", #[]), ("b", #[])], 0⟩ : DataTable) =
      (.ok ⟨⟨#[⟨.load 0, 0, some "a"⟩, ⟨.load 1, 1, some "b"⟩,
        ⟨.apply (.operator .add), 0, none⟩]⟩, none⟩, ⟨#[("a", #[]), ("b", #[])], 0⟩) := by
    cbv
  exact ⟨_, congrArg Prod.fst hcompile, (compiled_forwardPass hcompile .silent _ 0 ()).1⟩

end Evaluate

end ChoiceModel.Expression
