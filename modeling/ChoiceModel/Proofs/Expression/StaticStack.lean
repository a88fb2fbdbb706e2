import ChoiceModel.Proofs.Expression.Stored
import ChoiceModel.Store.Scalars

/-! The values that an evaluation finds stored, by the instructions of a program alone. Wherever it comes
to a function, exactly the `put` instructions below have been evaluated, in the order of the program; so
a `get` counts among these, and the store is full at the same `put` in every evaluation. -/

namespace ChoiceModel.Expression

open Decimal Store Relation

theorem Fragment.ends_eq_append {fs : List Fragment} {first e : Nat} {before behind : List Nat}
    (h : ends fs first = before ++ e :: behind) :
    ∃ fs₁ f fs₂, fs = fs₁ ++ f :: fs₂ ∧ before = ends fs₁ first ∧
      e = first + (join fs₁ first).length + (f (first + (join fs₁ first).length)).length - 1 := by
  induction before generalizing fs first with
  | nil =>
    cases fs with
    | nil => cases h
    | cons f fs =>
      obtain ⟨rfl, -⟩ := List.cons.inj h
      exact ⟨[], f, fs, rfl, rfl, rfl⟩
  | cons i before ih =>
    cases fs with
    | nil => cases h
    | cons g fs =>
      obtain ⟨rfl, hrest⟩ := List.cons.inj h
      obtain ⟨fs₁, f, fs₂, rfl, rfl, rfl⟩ := ih hrest
      refine ⟨g :: fs₁, f, fs₂, rfl, rfl, ?_⟩
      simp only [join, List.length_append, Nat.add_assoc]

theorem Fragment.last_apply (op : Opcode) (fs : List Fragment) (first : Nat) :
    first + (apply op fs first).length - 1 = first + (join fs first).length := by
  rw [apply, List.length_append, List.length_singleton, ← Nat.add_assoc, Nat.add_sub_cancel]

theorem Program.Holds.last_apply {p : Program} {op : Opcode} {fs : List Fragment} {first : Nat}
    (h : p.Holds first (Fragment.apply op fs first)) :
    p.instruction? (first + (Fragment.apply op fs first).length - 1) = some (.apply op) := by
  rw [Fragment.last_apply]
  exact h.right.instruction?

section Operands

variable {p : Program} {t : Tree Variable} {first : Nat} {op : Opcode}

theorem Tree.exists_operands (hholds : p.Holds first (t.slots first))
    (hi : p.instruction? (first + (t.slots first).length - 1) = some (.apply op))
    (hop : op ≠ .lookup) :
    ∃ ts : List (Tree Variable), ts.length = op.operands ∧ t.slots = .apply op (ts.map slots) := by
  cases t with
  | literal x => cases hi.symm.trans hholds.instruction?
  | load v => cases hi.symm.trans hholds.instruction?
  | operator o left right =>
    cases hi.symm.trans hholds.last_apply
    exact ⟨[left, right], rfl, rfl⟩
  | call f args =>
    cases hi.symm.trans hholds.last_apply
    refine ⟨List.ofFn args, List.length_ofFn, ?_⟩
    rw [List.map_ofFn]
    rfl
  | lookup group subscript =>
    cases hi.symm.trans hholds.last_apply
    exact (hop rfl).elim

theorem Tree.exists_subscript (hholds : p.Holds first (t.slots first))
    (hi : p.instruction? (first + (t.slots first).length - 1) = some (.apply .lookup)) :
    ∃ group subscript, t.slots = .apply .lookup [.matrix group, slots subscript] := by
  cases t with
  | literal x => cases hi.symm.trans hholds.instruction?
  | load v => cases hi.symm.trans hholds.instruction?
  | operator o left right => cases hi.symm.trans hholds.last_apply
  | call f args => cases hi.symm.trans hholds.last_apply
  | lookup group subscript => exact ⟨group, subscript, rfl⟩

theorem Tree.closed_of_mem {ts : List (Tree Variable)} :
    ∀ f ∈ ts.map slots, f.Closed := by
  intro f hf
  obtain ⟨t, -, rfl⟩ := List.mem_map.mp hf
  exact t.closed_slots

end Operands

section Calls

variable {σ κ : Type} [Cells σ κ] {p : Program} {table : σ} {ctx : κ}

/-- The operands in front of an operand are evaluated in the order of the program. -/
theorem reduceAll_stacked {ts : List (Tree Variable)} {first bound : Nat} {xs : List Float}
    {m m' : Machine (List Event)} {hbound : ∀ e ∈ Fragment.ends (ts.map Tree.slots) first, e < bound}
    (hholds : p.Holds first (Fragment.join (ts.map Tree.slots) first)) (hm : p.Stacked first m)
    (h : reduceAll .log p table ctx bound (Fragment.ends (ts.map Tree.slots) first) hbound m =
      (.ok xs, m')) :
    p.Stacked (first + (Fragment.join (ts.map Tree.slots) first).length) m' := by
  have hsimulates : ∀ f ∈ ts.map Tree.slots, f.Simulates .log p table ctx := by
    intro f hf
    obtain ⟨t, -, rfl⟩ := List.mem_map.mp hf
    exact t.simulates
  have hforward := forward_join hsimulates hholds bound hbound [] m
  rw [h] at hforward
  exact forward_stacked hholds hm hforward

/-- An evaluation of a tree that stands in a program, begun with the results of what stands in front of
the tree. -/
inductive Program.Rooted (p : Program) : Nat × Machine (List Event) → Prop where
  | intro (t : Tree Variable) {first : Nat} {m : Machine (List Event)} :
    p.Holds first (t.slots first) → p.Stacked first m →
    p.Rooted (first + (t.slots first).length - 1, m)

theorem Program.Rooted.operands {i : Nat} {m : Machine (List Event)} {op : Opcode}
    {ends : List Nat} (h : p.Rooted (i, m)) (hop : op ≠ .lookup)
    (hi : p.instruction? i = some (.apply op)) (hends : p.operandEnds i op.operands = .ok ends) :
    ∃ (ts : List (Tree Variable)) (first : Nat),
      p.Holds first (Fragment.join (ts.map Tree.slots) first) ∧ p.Stacked first m ∧
      i = first + (Fragment.join (ts.map Tree.slots) first).length ∧
      ends = Fragment.ends (ts.map Tree.slots) first := by
  obtain ⟨t, hholds, hm⟩ := h
  obtain ⟨ts, hlen, hslots⟩ := t.exists_operands hholds hi hop
  rw [hslots] at hholds hends
  have hlen : (ts.map Tree.slots).length = op.operands := by rw [List.length_map, hlen]
  have hall := Fragment.operandEnds_apply Tree.closed_of_mem hlen hholds
  rw [Fragment.last_apply] at hends
  refine ⟨ts, _, hholds.left, hm, ?_, Except.ok.inj (hends.symm.trans hall)⟩
  rw [hslots, Fragment.last_apply]

theorem Program.Rooted.call {c d : Nat × Machine (List Event)} (h : p.Rooted c)
    (hcall : Calls .log p table ctx c d) : p.Rooted d := by
  cases hcall with
  | operand hop hi hends hbefore =>
    obtain ⟨ts, first, hholds, hm, rfl, heq⟩ := h.operands hop hi hends
    obtain ⟨fs₁, f, fs₂, hsplit, rfl, rfl⟩ := Fragment.ends_eq_append heq.symm
    obtain ⟨ts₁, rest, rfl, rfl, hrest⟩ := List.map_eq_append_iff.mp hsplit
    obtain ⟨t, ts₂, rfl, rfl, rfl⟩ := List.map_eq_cons_iff.mp hrest
    rw [List.map_append, List.map_cons, Fragment.join_append] at hholds
    exact .intro t hholds.right.left (reduceAll_stacked hholds.left hm hbefore)
  | subscript hi hends hbase =>
    obtain ⟨t, hholds, hm⟩ := h
    obtain ⟨group, subscript, hslots⟩ := t.exists_subscript hholds hi
    have hclosed : ∀ f ∈ [Fragment.matrix group, subscript.slots], f.Closed := by
      simp [Fragment.closed_matrix, subscript.closed_slots]
    rw [hslots] at hholds hends
    have hall := Fragment.operandEnds_apply hclosed rfl hholds
    rw [Fragment.last_apply] at hends
    cases hends.symm.trans hall
    rw [Fragment.apply, Fragment.join, Fragment.join_singleton, List.append_assoc] at hholds
    exact .intro subscript hholds.right.left (hm.step hholds.left.instruction? rfl)

theorem Program.Rooted.calls {c d : Nat × Machine (List Event)} (h : p.Rooted c)
    (hcalls : ReflTransGen (Calls .log p table ctx) c d) : p.Rooted d := by
  induction hcalls with
  | refl => exact h
  | tail _ hcall ih => exact ih.call hcall

/-- Whenever an evaluation comes to a function, the `put`s below it have been evaluated. -/
theorem Applies.stacked {c : Nat × Machine (List Event)} {f : Builtin} {j : Nat} {args : List Float}
    {m : Machine (List Event)} (h : Applies .log p table ctx c f j args m) (hc : p.Rooted c) :
    p.Stacked j m := by
  obtain ⟨hcalls, hj, hends, hargs⟩ := h
  obtain ⟨ts, first, hholds, hm, rfl, rfl⟩ :=
    (hc.calls hcalls).operands Opcode.noConfusion hj hends
  exact reduceAll_stacked hholds hm hargs

end Calls

section Static

variable {σ κ : Type} [Cells σ κ]

/-- The evaluation of a program comes to the function `f` at `j`, with the values of its arguments and
the machine that they leave. -/
def Program.Reaches (p : Program) (table : σ) (ctx : κ) (f : Builtin) (j : Nat) (args : List Float)
    (m : Machine (List Event)) : Prop :=
  Applies .log p table ctx (p.size - 1, ⟨[], []⟩) f j args m

/-- What an evaluation finds stored, and how it fails of that, goes by the `put` instructions of the
program alone. -/
structure Program.StoresStatically (p : Program) (table : σ) (ctx : κ) : Prop where
  /-- Every function that the evaluation reports is one that it has come to. -/
  reported : ∀ event ∈ (evaluate .log p table ctx []).2, ∀ f,
    event.2.instruction = .apply (.function f) →
    ∃ m stored, p.Reaches table ctx f event.2.index event.2.operands m ∧
      f.outcome event.2.operands m.stored = .ok (event.2.result, stored)
  /-- What is stored are the results of the `put`s below. -/
  stacked : ∀ f j args m, p.Reaches table ctx f j args m → p.Stacked j m
  /-- A `get` returns the result of the `put` that its position counts to. -/
  get : ∀ j a m (k : Nat), p.Reaches table ctx .get j [a] m → truncated? a = some (k : Int) →
    1 ≤ k → k ≤ (p.putsBelow j).length → ∃ i x, (p.putsBelow j)[k - 1]? = some i ∧
      (putResults m.seen)[k - 1]? = some (i, x) ∧
      Builtin.get.outcome [a] m.stored = .ok (x, m.stored)
  /-- A `get` whose position counts to none of them ends the evaluation. -/
  underflow : ∀ j a m, p.Reaches table ctx .get j [a] m → ¬ Selects a (p.putsBelow j).length →
    evaluate .log p table ctx [] = (.error (.underflow a (p.putsBelow j).length), m.seen)
  /-- The `put` after as many as can be stored ends the evaluation. -/
  overflow : ∀ j a m, p.Reaches table ctx .put j [a] m → p.puts[storeCapacity]? = some j →
    evaluate .log p table ctx [] = (.error (.overflow storeCapacity), m.seen)
  /-- Nothing else fails like this, unless the table itself does. -/
  only : ∀ (τ : Type) (obs : Observer τ) (seen : τ) (err : EvalError), err.IsOfStore →
    (evaluate obs p table ctx seen).1 = .error err →
    p.ReadFails table ctx err ∨
    (∃ j a m, p.Reaches table ctx .get j [a] m ∧ ¬ Selects a (p.putsBelow j).length ∧
      err = .underflow a (p.putsBelow j).length) ∨
    ∃ j a m, p.Reaches table ctx .put j [a] m ∧ p.puts[storeCapacity]? = some j ∧
      err = .overflow storeCapacity
  /-- A program with more `put`s than can be stored has no value. -/
  full : storeCapacity < p.puts.length → ∀ (τ : Type) (obs : Observer τ) (seen : τ) (x : Float),
    (evaluate obs p table ctx seen).1 ≠ .ok x

namespace Tree

variable {t : Tree Variable} {table : σ} {ctx : κ}

theorem size_program (t : Tree Variable) : t.program.size = (t.slots 0).length := List.size_toArray

theorem size_pos (t : Tree Variable) : 0 < t.program.size := by
  rw [t.size_program]
  exact t.closed_slots.length_pos 0

theorem rooted (t : Tree Variable) : t.program.Rooted (t.program.size - 1, ⟨[], []⟩) := by
  rw [t.size_program, ← Nat.zero_add (t.slots 0).length]
  exact .intro t t.holds_program .nil

theorem stacked_of_reaches {f : Builtin} {j : Nat} {args : List Float} {m : Machine (List Event)}
    (h : t.program.Reaches table ctx f j args m) : t.program.Stacked j m :=
  Applies.stacked h t.rooted

theorem evaluate_error {f : Builtin} {j : Nat} {args : List Float} {m : Machine (List Event)}
    {err : EvalError} (h : t.program.Reaches table ctx f j args m)
    (herr : f.outcome args m.stored = .error err) :
    evaluate .log t.program table ctx [] = (.error err, m.seen) := by
  rw [evaluate_eq_reduce _ t.size_pos, Applies.reduce_error h herr]

/-- An evaluation that returns a value has evaluated every `put`. -/
theorem stacked_of_ok {x : Float} (h : (evaluate .log t.program table ctx []).1 = .ok x) :
    ∃ m, t.program.Stacked t.program.size m := by
  rw [evaluate_eq_reduce _ t.size_pos, t.size_program, ← Nat.zero_add (t.slots 0).length] at h
  have hsimulates : t.slots.Simulates .log t.program table ctx := t.simulates
  have hforward := hsimulates 0 [] ⟨[], []⟩ t.holds_program
  rcases hreduce : reduce .log t.program table ctx (0 + (t.slots 0).length - 1) ⟨[], []⟩ with
    ⟨result, m⟩
  rw [hreduce] at h hforward
  cases h
  have hstacked := forward_stacked t.holds_program .nil hforward
  rw [Nat.zero_add, ← t.size_program] at hstacked
  exact ⟨m, hstacked⟩

theorem accounted (t : Tree Variable) (table : σ) (ctx : κ) :
    ∃ m, (evaluate .log t.program table ctx []).2 = m.seen ∧
      Accounted t.program table ctx (t.program.size - 1, ⟨[], []⟩) ⟨[], []⟩
        (evaluate .log t.program table ctx []).1 m := by
  rw [evaluate_eq_reduce _ t.size_pos]
  exact ⟨_, rfl, reduce_accounted rfl⟩

/-- How an evaluation fails of what it has stored. -/
theorem evaluate_of_store {err : EvalError} (hstore : err.IsOfStore)
    (h : (evaluate .log t.program table ctx []).1 = .error err) :
    t.program.ReadFails table ctx err ∨
    (∃ j a m, t.program.Reaches table ctx .get j [a] m ∧
      ¬ Selects a (t.program.putsBelow j).length ∧
      err = .underflow a (t.program.putsBelow j).length) ∨
    ∃ j a m, t.program.Reaches table ctx .put j [a] m ∧ t.program.puts[storeCapacity]? = some j ∧
      err = .overflow storeCapacity := by
  obtain ⟨m, -, haccounted⟩ := t.accounted table ctx
  cases haccounted.breaks err h with
  | invalid =>
    rcases hstore with ⟨_, _, h⟩ | ⟨_, h⟩
    · cases h
    · cases h
  | read hread => exact .inl hread
  | @function f j args _ happlies herr =>
    have hstacked := stacked_of_reaches happlies
    rcases Builtin.outcome_eq_error herr with ⟨rfl, hat⟩ | ⟨rfl, hsize, rfl⟩
    · obtain ⟨a, rfl⟩ := List.length_eq_one_iff.mp happlies.length_args
      have hselects : ¬ Selects a (t.program.putsBelow j).length := by
        rintro ⟨k, hk, hpos, hle⟩
        obtain ⟨i, x, -, -, hok⟩ := hstacked.get_outcome hk hpos hle
        cases hok.symm.trans herr
      have hunderflow := hstacked.get_outcome_underflow hselects
      exact .inr (.inl ⟨j, a, m, happlies, hselects, Except.error.inj (herr.symm.trans hunderflow)⟩)
    · obtain ⟨a, rfl⟩ := List.length_eq_one_iff.mp happlies.length_args
      have hplace := (Program.puts_getElem?_iff happlies.instruction?).mpr
        (hstacked.length_eq.symm.trans hsize)
      exact .inr (.inr ⟨j, a, m, happlies, hplace, rfl⟩)

theorem storesStatically (t : Tree Variable) (table : σ) (ctx : κ) :
    t.program.StoresStatically table ctx where
  reported event hevent f hf := by
    obtain ⟨m, hseen, haccounted⟩ := t.accounted table ctx
    obtain ⟨events, hevents, hreported⟩ := haccounted.reports
    rw [hseen, hevents] at hevent
    exact hreported event hevent f hf
  stacked f j args m h := stacked_of_reaches h
  get j a m k h hk hpos hle := (stacked_of_reaches h).get_outcome hk hpos hle
  underflow j a m h hselects :=
    evaluate_error h ((stacked_of_reaches h).get_outcome_underflow hselects)
  overflow j a m h hplace := by
    have hsize := (Program.puts_getElem?_iff (Applies.instruction? h)).mp hplace
    exact evaluate_error h ((stacked_of_reaches h).put_outcome_overflow hsize)
  only τ obs seen err hstore h := by
    obtain ⟨result, events, hsame⟩ := evaluate_faithful t.program table ctx
    rw [hsame] at h
    refine evaluate_of_store hstore ?_
    rw [hsame, ← h]
  full hmany τ obs seen x h := by
    obtain ⟨result, events, hsame⟩ := evaluate_faithful t.program table ctx
    rw [hsame] at h
    have hlog : (evaluate .log t.program table ctx []).1 = .ok x := by rw [hsame, ← h]
    obtain ⟨m, hstacked⟩ := stacked_of_ok hlog
    have hlength := hstacked.length_eq
    have hbounded := hstacked.bounded
    rw [Program.puts] at hmany
    omega

end Tree

/-- The values that a compiled program stores are static: an evaluation that comes to a `get` finds the
results of the `put`s below it, in the order of the program. -/
theorem compile_storesStatically {ρ : Type} [Resolver ρ] {text : String} {s s' : ρ} {c : Compiled}
    (h : compile text s = (.ok c, s')) (table : σ) (ctx : κ) :
    c.program.StoresStatically table ctx := by
  obtain ⟨t, ht⟩ := compile_eq_tree h
  rw [ht]
  exact t.storesStatically table ctx

end Static

def pair (x y : Float) : Scalars := ⟨#[("a", x), ("b", y)]⟩

/-- The product of two functions, the first of which stores a value. -/
def putGet : Tree Variable :=
  .operator .mul (.call .put fun _ => .load ⟨"a", 0⟩) (.call .get fun _ => .load ⟨"b", 1⟩)

theorem reaches_putGet (x y : Float) :
    ∃ m, putGet.program.Reaches (pair x y) () .get 3 [y] m := by
  have hload : putGet.program.instruction? 0 = some (.load 0) := rfl
  have hput : putGet.program.instruction? 1 = some (.apply (.function .put)) := rfl
  have hposition : putGet.program.instruction? 2 = some (.load 1) := rfl
  have hget : putGet.program.instruction? 3 = some (.apply (.function .get)) := rfl
  have hmul : putGet.program.instruction? 4 = some (.apply (.operator .mul)) := rfl
  have hputEnds : putGet.program.operandEnds 1 (Opcode.function .put).operands = .ok [0] := rfl
  have hgetEnds : putGet.program.operandEnds 3 (Opcode.function .get).operands = .ok [2] := rfl
  have hmulEnds : putGet.program.operandEnds 4 (Opcode.operator .mul).operands =
      .ok ([1] ++ 3 :: []) := rfl
  obtain ⟨m, hfirst⟩ : ∃ m, reduceAll .log putGet.program (pair x y) () 4 [1] (by simp) ⟨[], []⟩ =
      (.ok [x], m) := by
    simp only [reduceAll, reduce_function hput hputEnds, reduce_load hload]
    exact ⟨_, rfl⟩
  obtain ⟨m', hsecond⟩ : ∃ m', reduceAll .log putGet.program (pair x y) () 3 [2] (by simp) m =
      (.ok [y], m') := by
    simp only [reduceAll, reduce_load hposition]
    exact ⟨_, rfl⟩
  have hcall : Calls .log putGet.program (pair x y) () (4, ⟨[], []⟩) (3, m) :=
    .operand Opcode.noConfusion hmul hmulEnds hfirst
  exact ⟨m', .intro (.single hcall) hget hgetEnds hsecond⟩

set_option maxRecDepth 20000 in
/-- The evaluation comes to the `get` with what the `put` in front of it has stored. -/
theorem compile_storesStatically_putGet : ∃ c : Compiled,
    (∀ x y, compile "put(a)*get(b)" (pair x y) = (.ok c, pair x y)) ∧
      ∀ x y, ∃ m, c.program.Reaches (pair x y) () .get 3 [y] m ∧ c.program.Stacked 3 m := by
  have hcompile : ∀ x y, compile "put(a)*get(b)" (pair x y) =
      (.ok ⟨putGet.program, none⟩, pair x y) := by
    intro x y
    cbv
  refine ⟨_, hcompile, fun x y => ?_⟩
  obtain ⟨m, hreaches⟩ := reaches_putGet x y
  have hstatic := compile_storesStatically (hcompile x y) (pair x y) ()
  exact ⟨m, hreaches, hstatic.stacked _ _ _ _ hreaches⟩

end ChoiceModel.Expression
