import ChoiceModel.Proofs.Expression.Observation
import Mathlib.Logic.Relation

/-! The calls that an evaluation makes of itself. It comes to the operands of an operation one after
the other, and each begins with what those in front of it have stored. A function that an evaluation
comes to and that fails ends the evaluation, and nothing else but the table ends it with an error about
the stored values. -/

namespace ChoiceModel.Expression

open Store Relation

namespace Program

/-- The operands of an operation are found, one for each argument, or else the program is invalid. -/
inductive Located (count : Nat) : Except EvalError (List Nat × Nat) → Prop where
  | ok {ends : List Nat} {first : Nat} : ends.length = count → Located count (.ok (ends, first))
  | invalid {k : Nat} {fault : StreamFault} : Located count (.error (.invalid k fault))

theorem located_endsBefore (p : Program) (index count cursor : Nat) :
    Located count (p.endsBefore index count cursor) := by
  induction count generalizing cursor with
  | zero => exact .ok rfl
  | succ count ih =>
    cases cursor with
    | zero => exact .invalid
    | succ last =>
      have hrest := ih (p.startOf last)
      simp only [endsBefore]
      split
      · exact .invalid
      · generalize p.endsBefore index count (p.startOf last) = rest at hrest ⊢
        cases hrest with
        | ok hlength => exact .ok (by rw [List.length_append, hlength]; rfl)
        | invalid => exact .invalid

theorem length_operandEnds {p : Program} {index count : Nat} {ends : List Nat}
    (h : p.operandEnds index count = .ok ends) : ends.length = count := by
  have hlocated := p.located_endsBefore index count index
  rw [operandEnds] at h
  generalize p.endsBefore index count index = located at hlocated h
  cases hlocated with
  | ok hlength =>
    simp only at h
    split at h
    · cases h
      exact hlength
    · cases h
  | invalid => cases h

theorem operandEnds_error {p : Program} {index count : Nat} {err : EvalError}
    (h : p.operandEnds index count = .error err) : ∃ k fault, err = .invalid k fault := by
  have hlocated := p.located_endsBefore index count index
  rw [operandEnds] at h
  generalize p.endsBefore index count index = located at hlocated h
  cases hlocated with
  | ok hlength =>
    simp only at h
    split at h
    · cases h
    · cases h
      exact ⟨_, _, rfl⟩
  | invalid =>
    cases h
    exact ⟨_, _, rfl⟩

end Program

/-- The outcome of a function of the values of its arguments. -/
def Builtin.outcome (f : Builtin) (args stored : List Float) : Except EvalError (Float × List Float) :=
  f.eval (args.getD 0 0.0) (args.getD 1 0.0) (args.getD 2 0.0) stored

section Calls

variable {σ κ τ : Type} [Cells σ κ] (obs : Observer τ) (p : Program) (table : σ) (ctx : κ)

/-- An evaluation at an instruction, begun in a machine, comes to an operand of the instruction. -/
inductive Calls : Nat × Machine τ → Nat × Machine τ → Prop where
  | operand {i e : Nat} {op : Opcode} {before behind : List Nat} {hbefore : ∀ e ∈ before, e < i}
      {xs : List Float} {m m₁ : Machine τ} :
    op ≠ .lookup → p.instruction? i = some (.apply op) →
    p.operandEnds i op.operands = .ok (before ++ e :: behind) →
    reduceAll obs p table ctx i before hbefore m = (.ok xs, m₁) → Calls (i, m) (e, m₁)
  | subscript {i base e index : Nat} {m : Machine τ} :
    p.instruction? i = some (.apply .lookup) →
    p.operandEnds i Opcode.lookup.operands = .ok [base, e] →
    p.instruction? base = some (.matrix index) → Calls (i, m) (e, m)

/-- From a call on, the evaluation comes to the function `f` at `j`, with the values of its arguments
and the machine that they leave. -/
inductive Applies (c : Nat × Machine τ) (f : Builtin) (j : Nat) (args : List Float) (m : Machine τ) :
    Prop where
  | intro {ends : List Nat} {hends : ∀ e ∈ ends, e < j} {m₀ : Machine τ} :
    ReflTransGen (Calls obs p table ctx) c (j, m₀) →
    p.instruction? j = some (.apply (.function f)) →
    p.operandEnds j (Opcode.function f).operands = .ok ends →
    reduceAll obs p table ctx j ends hends m₀ = (.ok args, m) → Applies c f j args m

/-- A variable or a group of matrices that a program reads from a table fails with an error. -/
inductive Program.ReadFails (p : Program) (table : σ) (ctx : κ) : EvalError → Prop where
  | read {i index : Nat} {err : EvalError} : p.instruction? i = some (.load index) →
    Cells.read table index ctx = .error err → p.ReadFails table ctx err
  | readIndexed {i index : Nat} {y : Float} {err : EvalError} :
    p.instruction? i = some (.matrix index) → Cells.readIndexed table index y ctx = .error err →
    p.ReadFails table ctx err

/-- What breaks off an evaluation with an error, in a machine. -/
inductive BreaksOff (c : Nat × Machine τ) (m : Machine τ) : EvalError → Prop where
  | invalid {k : Nat} {fault : StreamFault} : BreaksOff c m (.invalid k fault)
  | read {err : EvalError} : p.ReadFails table ctx err → BreaksOff c m err
  | function {f : Builtin} {j : Nat} {args : List Float} {err : EvalError} :
    Applies obs p table ctx c f j args m → f.outcome args m.stored = .error err → BreaksOff c m err

variable {obs p table ctx}

theorem reduceAll_append {bound : Nat} {before behind : List Nat}
    (hends : ∀ i ∈ before ++ behind, i < bound) (m : Machine τ) :
    reduceAll obs p table ctx bound (before ++ behind) hends m =
      match reduceAll obs p table ctx bound before
          (fun i hi => hends i (List.mem_append_left _ hi)) m with
      | (.error e, m) => (.error e, m)
      | (.ok xs, m) =>
        match reduceAll obs p table ctx bound behind
            (fun i hi => hends i (List.mem_append_right _ hi)) m with
        | (.error e, m) => (.error e, m)
        | (.ok ys, m) => (.ok (xs ++ ys), m) := by
  induction before generalizing m with
  | nil =>
    simp only [List.nil_append, reduceAll]
    rcases reduceAll obs p table ctx bound behind _ m with ⟨err | ys, m₁⟩
    · rfl
    · rfl
  | cons e before ih =>
    simp only [List.cons_append, reduceAll]
    rcases reduce obs p table ctx e m with ⟨err | x, m₁⟩
    · rfl
    · simp only [ih]
      rcases reduceAll obs p table ctx bound before _ m₁ with ⟨err | xs, m₂⟩
      · rfl
      · simp only
        rcases reduceAll obs p table ctx bound behind _ m₂ with ⟨err | ys, m₃⟩
        · rfl
        · rfl

variable {c d : Nat × Machine τ} {m' : Machine τ} {err : EvalError}

theorem Calls.reduce_error (h : Calls obs p table ctx c d)
    (herr : reduce obs p table ctx d.1 d.2 = (.error err, m')) :
    reduce obs p table ctx c.1 c.2 = (.error err, m') := by
  cases h with
  | @operand i e op before behind _ _ m _ hop hi hends hbefore =>
    have hall : reduceAll obs p table ctx i (before ++ e :: behind) (Program.operandEnds_lt hends) m =
        (.error err, m') := by
      rw [reduceAll_append, hbefore]
      simp only [reduceAll, herr]
    cases op with
    | lookup => exact (hop rfl).elim
    | operator op => rw [reduce_operator hi hends, hall]
    | function f => rw [reduce_function hi hends, hall]
  | subscript hi hends hbase => rw [reduce_lookup hi hends hbase, herr]

theorem reduce_error_of_calls (h : ReflTransGen (Calls obs p table ctx) c d)
    (herr : reduce obs p table ctx d.1 d.2 = (.error err, m')) :
    reduce obs p table ctx c.1 c.2 = (.error err, m') := by
  induction h using ReflTransGen.head_induction_on with
  | refl => exact herr
  | head hcall _ ih => exact hcall.reduce_error ih

theorem Applies.head {f : Builtin} {j : Nat} {args : List Float} {m : Machine τ}
    (hcall : Calls obs p table ctx c d) (h : Applies obs p table ctx d f j args m) :
    Applies obs p table ctx c f j args m := by
  obtain ⟨hcalls, hj, hends, hargs⟩ := h
  exact ⟨.head hcall hcalls, hj, hends, hargs⟩

theorem Applies.instruction? {f : Builtin} {j : Nat} {args : List Float} {m : Machine τ}
    (h : Applies obs p table ctx c f j args m) :
    p.instruction? j = some (.apply (.function f)) := by
  obtain ⟨-, hj, -, -⟩ := h
  exact hj

theorem Applies.length_args {f : Builtin} {j : Nat} {args : List Float} {m : Machine τ}
    (h : Applies obs p table ctx c f j args m) : args.length = (Opcode.function f).operands := by
  obtain ⟨-, -, hends, hargs⟩ := h
  rw [length_of_reduceAll hargs, Program.length_operandEnds hends]

/-- A function that fails ends the evaluation that has come to it. -/
theorem Applies.reduce_error {f : Builtin} {j : Nat} {args : List Float} {m : Machine τ}
    (h : Applies obs p table ctx c f j args m)
    (herr : f.outcome args m.stored = .error err) :
    reduce obs p table ctx c.1 c.2 = (.error err, m) := by
  obtain ⟨hcalls, hj, hends, hargs⟩ := h
  refine reduce_error_of_calls hcalls ?_
  rw [Builtin.outcome] at herr
  rw [reduce_function hj hends, hargs]
  simp only [herr]

theorem evaluate_eq_reduce (obs : Observer τ) (hp : 0 < p.size) (table : σ) (ctx : κ) (seen : τ) :
    evaluate obs p table ctx seen =
      ((reduce obs p table ctx (p.size - 1) ⟨[], seen⟩).1,
        (reduce obs p table ctx (p.size - 1) ⟨[], seen⟩).2.seen) := by
  obtain ⟨last, hlast⟩ := Nat.exists_eq_add_one.mpr hp
  rw [evaluate, hlast]
  rfl

theorem BreaksOff.head {m : Machine τ} (hcall : Calls obs p table ctx c d)
    (h : BreaksOff obs p table ctx d m err) : BreaksOff obs p table ctx c m err := by
  cases h with
  | invalid => exact .invalid
  | read hread => exact .read hread
  | function happlies heval => exact .function (happlies.head hcall) heval

end Calls

section Reports

variable {σ κ : Type} [Cells σ κ] (p : Program) (table : σ) (ctx : κ)

/-- Every function that is reported between two machines is one that the evaluation has come to, with
the operands and the result that are reported. -/
def Reports (c : Nat × Machine (List Event)) (m m' : Machine (List Event)) : Prop :=
  ∃ events, m'.seen = m.seen ++ events ∧
    ∀ event ∈ events, ∀ f, event.2.instruction = .apply (.function f) →
      ∃ m₁ stored, Applies .log p table ctx c f event.2.index event.2.operands m₁ ∧
        f.outcome event.2.operands m₁.stored = .ok (event.2.result, stored)

variable {p table ctx} {c d : Nat × Machine (List Event)} {m m₁ m' : Machine (List Event)}

namespace Reports

theorem refl (c : Nat × Machine (List Event)) (m : Machine (List Event)) :
    Reports p table ctx c m m :=
  ⟨[], (List.append_nil _).symm, fun _ h => absurd h List.not_mem_nil⟩

theorem trans (h : Reports p table ctx c m m₁) (h' : Reports p table ctx c m₁ m') :
    Reports p table ctx c m m' := by
  obtain ⟨events, hseen, hevents⟩ := h
  obtain ⟨more, hseen', hmore⟩ := h'
  refine ⟨events ++ more, by rw [hseen', hseen, List.append_assoc], fun event hevent => ?_⟩
  rcases List.mem_append.mp hevent with hevent | hevent
  · exact hevents event hevent
  · exact hmore event hevent

theorem head (hcall : Calls .log p table ctx c d) (h : Reports p table ctx d m m') :
    Reports p table ctx c m m' := by
  obtain ⟨events, hseen, hevents⟩ := h
  refine ⟨events, hseen, fun event hevent f hf => ?_⟩
  obtain ⟨m₁, stored, happlies, hok⟩ := hevents event hevent f hf
  exact ⟨m₁, stored, happlies.head hcall, hok⟩

theorem other {r : Reduction} (h : ∀ f, r.instruction ≠ .apply (.function f)) :
    Reports p table ctx c m (m.see .log p r) := by
  refine ⟨[(p, r)], rfl, fun event hevent f hf => ?_⟩
  rw [List.mem_singleton.mp hevent] at hf
  exact absurd hf (h f)

theorem function {f : Builtin} {j : Nat} {args stored : List Float} {x : Float}
    (h : Applies .log p table ctx c f j args m) (hok : f.outcome args m.stored = .ok (x, stored)) :
    Reports p table ctx c m
      ({ m with stored }.see .log p ⟨j, .apply (.function f), args, x⟩) := by
  refine ⟨[(p, ⟨j, .apply (.function f), args, x⟩)], rfl, fun event hevent g hg => ?_⟩
  cases List.mem_singleton.mp hevent
  cases hg
  exact ⟨m, stored, h, hok⟩

end Reports

variable (p table ctx) in
/-- An evaluation from one machine to another has come to all that it reports, and to what it fails
of. -/
structure Accounted {α : Type} (c : Nat × Machine (List Event)) (m : Machine (List Event))
    (result : Except EvalError α) (m' : Machine (List Event)) : Prop where
  reports : Reports p table ctx c m m'
  breaks : ∀ err, result = .error err → BreaksOff .log p table ctx c m' err

namespace Accounted

variable {α β : Type} {result : Except EvalError α} {err : EvalError}

theorem ok (h : Reports p table ctx c m m') (x : α) : Accounted p table ctx c m (.ok x) m' :=
  ⟨h, fun _ herr => by cases herr⟩

theorem error (h : Reports p table ctx c m m') (hbreaks : BreaksOff .log p table ctx c m' err) :
    Accounted p table ctx c m (.error err : Except EvalError α) m' := by
  refine ⟨h, fun err' herr => ?_⟩
  cases herr
  exact hbreaks

/-- What fails of an operand fails of the same. -/
theorem error_cast (h : Accounted p table ctx c m (.error err : Except EvalError α) m') :
    Accounted p table ctx c m (.error err : Except EvalError β) m' :=
  .error h.reports (h.breaks err rfl)

theorem head (hcall : Calls .log p table ctx c d) (h : Accounted p table ctx d m result m') :
    Accounted p table ctx c m result m' :=
  ⟨h.reports.head hcall, fun err herr => (h.breaks err herr).head hcall⟩

theorem after (hreports : Reports p table ctx c m m₁) (h : Accounted p table ctx c m₁ result m') :
    Accounted p table ctx c m result m' :=
  ⟨hreports.trans h.reports, h.breaks⟩

end Accounted

section Apply

variable {i : Nat} {ends before behind : List Nat} {xs : List Float}
  {result : Except EvalError Float} {results : Except EvalError (List Float)}
  (ih : ∀ e < i, ∀ {m m' : Machine (List Event)} {result : Except EvalError Float},
    reduce .log p table ctx e m = (result, m') → Accounted p table ctx (e, m) m result m')

include ih

theorem reduceAll_accounted_behind {op : Opcode} (hop : op ≠ .lookup)
    (hi : p.instruction? i = some (.apply op))
    (hends : p.operandEnds i op.operands = .ok (before ++ behind)) {hbefore : ∀ e ∈ before, e < i}
    (hok : reduceAll .log p table ctx i before hbefore m = (.ok xs, m₁))
    {hbehind : ∀ e ∈ behind, e < i}
    (h : reduceAll .log p table ctx i behind hbehind m₁ = (results, m')) :
    Accounted p table ctx (i, m) m₁ results m' := by
  induction behind generalizing before xs m₁ results with
  | nil =>
    rw [reduceAll] at h
    cases h
    exact .ok (.refl _ _) _
  | cons e behind ihEnds =>
    have hcall : Calls .log p table ctx (i, m) (e, m₁) := .operand hop hi hends hok
    have hlt : e < i := hbehind e List.mem_cons_self
    rw [reduceAll] at h
    split at h
    · rename_i hfirst
      cases h
      exact ((ih e hlt hfirst).head hcall).error_cast
    · rename_i x m₂ hfirst
      have hreports := ((ih e hlt hfirst).head hcall).reports
      -- the operand has a value, so that it is in front of the rest
      have hlonger : reduceAll .log p table ctx i (before ++ [e])
          (by simpa [or_imp, forall_and, hlt] using hbefore) m = (.ok (xs ++ [x]), m₂) := by
        rw [reduceAll_append, hok]
        simp only [reduceAll, hfirst]
      rw [List.append_cons] at hends
      split at h
      · rename_i hrest
        cases h
        exact .after hreports (ihEnds hends hlonger hrest)
      · rename_i hrest
        cases h
        exact .ok (hreports.trans (ihEnds hends hlonger hrest).reports) _

theorem reduceAll_accounted {op : Opcode} (hop : op ≠ .lookup)
    (hi : p.instruction? i = some (.apply op)) (hends : p.operandEnds i op.operands = .ok ends)
    {hlt : ∀ e ∈ ends, e < i} (h : reduceAll .log p table ctx i ends hlt m = (results, m')) :
    Accounted p table ctx (i, m) m results m' := by
  have hnone : reduceAll .log p table ctx i [] (by simp) m = (.ok [], m) := by rw [reduceAll]
  have hbehind : p.operandEnds i op.operands = .ok ([] ++ ends) := hends
  exact reduceAll_accounted_behind ih hop hi hbehind hnone h

theorem reduce_operator_accounted {op : Operator}
    (hi : p.instruction? i = some (.apply (.operator op)))
    (hends : p.operandEnds i (Opcode.operator op).operands = .ok ends)
    (h : reduce .log p table ctx i m = (result, m')) :
    Accounted p table ctx (i, m) m result m' := by
  rw [reduce_operator hi hends] at h
  split at h
  · rename_i hall
    cases h
    exact (reduceAll_accounted ih Opcode.noConfusion hi hends hall).error_cast
  · rename_i hall
    have hargs := (reduceAll_accounted ih Opcode.noConfusion hi hends hall).reports
    cases h
    exact .ok (hargs.trans (.other (by simp))) _

theorem reduce_function_accounted {f : Builtin}
    (hi : p.instruction? i = some (.apply (.function f)))
    (hends : p.operandEnds i (Opcode.function f).operands = .ok ends)
    (h : reduce .log p table ctx i m = (result, m')) :
    Accounted p table ctx (i, m) m result m' := by
  rw [reduce_function hi hends] at h
  split at h
  · rename_i hall
    cases h
    exact (reduceAll_accounted ih Opcode.noConfusion hi hends hall).error_cast
  · rename_i hall
    have hargs := (reduceAll_accounted ih Opcode.noConfusion hi hends hall).reports
    have happlies : Applies .log p table ctx (i, m) f i _ _ := .intro .refl hi hends hall
    split at h
    · rename_i hok
      cases h
      exact .ok (hargs.trans (.function happlies hok)) _
    · rename_i herr
      cases h
      exact .error hargs (.function happlies herr)

theorem reduce_lookup_accounted (hi : p.instruction? i = some (.apply .lookup))
    (hends : p.operandEnds i Opcode.lookup.operands = .ok ends)
    (h : reduce .log p table ctx i m = (result, m')) :
    Accounted p table ctx (i, m) m result m' := by
  obtain ⟨base, e, rfl⟩ := List.length_eq_two.mp (Program.length_operandEnds hends)
  have hlt : e < i := Program.operandEnds_lt hends e (by simp)
  by_cases hbase : ∃ index, p.instruction? base = some (.matrix index)
  · obtain ⟨index, hbase⟩ := hbase
    have hcall : Calls .log p table ctx (i, m) (e, m) := .subscript hi hends hbase
    rw [reduce_lookup hi hends hbase] at h
    split at h
    · rename_i hsubscript
      cases h
      exact (ih e hlt hsubscript).head hcall
    · rename_i hsubscript
      have hreports := ((ih e hlt hsubscript).head hcall).reports
      split at h
      · cases h
        exact .ok (hreports.trans (.other (by simp))) _
      · rename_i hread
        cases h
        exact .error hreports (.read (.readIndexed hbase hread))
  · rw [reduce_lookup_eq hi hends] at h
    split at h
    · rename_i index hmatrix
      exact absurd ⟨index, hmatrix⟩ hbase
    · cases h
      exact .error (.refl _ _) .invalid

end Apply

theorem reduce_accounted {i : Nat} {result : Except EvalError Float}
    (h : reduce .log p table ctx i m = (result, m')) :
    Accounted p table ctx (i, m) m result m' := by
  induction i using Nat.strong_induction_on generalizing m m' result with
  | h i ih =>
    cases hi : p.instruction? i with
    | none =>
      rw [reduce_none hi] at h
      cases h
      exact .error (.refl _ _) .invalid
    | some instruction =>
      cases instruction with
      | literal x =>
        rw [reduce_literal hi] at h
        cases h
        exact .ok (.other (by simp)) _
      | load index =>
        rw [reduce_load hi] at h
        split at h
        · cases h
          exact .ok (.other (by simp)) _
        · rename_i hread
          cases h
          exact .error (.refl _ _) (.read (.read hi hread))
      | matrix index =>
        rw [reduce_matrix hi] at h
        cases h
        exact .error (.refl _ _) .invalid
      | apply op =>
        cases hends : p.operandEnds i op.operands with
        | error fault =>
          obtain ⟨k, detail, rfl⟩ := Program.operandEnds_error hends
          rw [reduce_operandEnds hi hends] at h
          cases h
          exact .error (.refl _ _) .invalid
        | ok ends =>
          cases op with
          | lookup => exact reduce_lookup_accounted ih hi hends h
          | operator op => exact reduce_operator_accounted ih hi hends h
          | function f => exact reduce_function_accounted ih hi hends h

end Reports

end ChoiceModel.Expression
