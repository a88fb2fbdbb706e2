import ChoiceModel.Expression.Basic
import ChoiceModel.Proofs.Expression.ForwardPass

/-! What observers see of an evaluation. The result does not depend on the observer, and neither do
the reductions that are reported to it. On the program of a tree these are the instructions one after
the other, without the groups of matrices, up to the first that fails. -/

namespace ChoiceModel.Expression

open Store

/-- A reduction, and the program that it belongs to. -/
abbrev Event := Program × Reduction

/-- What an observer remembers after the events. -/
def Observer.seeAll {τ : Type} (obs : Observer τ) (events : List Event) (seen : τ) : τ :=
  events.foldl (fun seen event => obs.see event.1 event.2 seen) seen

/-- Remembers every event. -/
def Observer.log : Observer (List Event) where
  see p r events := events ++ [(p, r)]

section SeeAll

variable {τ : Type} (obs : Observer τ)

@[simp] theorem Observer.seeAll_nil (seen : τ) : obs.seeAll [] seen = seen := rfl

@[simp] theorem Observer.seeAll_append (events more : List Event) (seen : τ) :
    obs.seeAll (events ++ more) seen = obs.seeAll more (obs.seeAll events seen) := List.foldl_append

theorem Observer.seeAll_log (events seen : List Event) :
    Observer.log.seeAll events seen = seen ++ events := by
  induction events generalizing seen with
  | nil => exact (List.append_nil seen).symm
  | cons event events ih =>
    rw [← List.singleton_append, seeAll_append, ih]
    exact List.append_assoc seen [event] events

end SeeAll

/-- A part of an evaluation whose outcome, stored values and events are the same for every
observer. -/
def Faithful {α : Type} (run : (τ : Type) → Observer τ → Machine τ → α × Machine τ) : Prop :=
  ∀ stored, ∃ outcome stored' events, ∀ (τ : Type) (obs : Observer τ) (seen : τ),
    run τ obs ⟨stored, seen⟩ = (outcome, ⟨stored', obs.seeAll events seen⟩)

section Reduce

variable {σ κ : Type} [Cells σ κ] {p : Program} {table : σ} {ctx : κ} {i : Nat}

section Cases

variable {τ : Type} {obs : Observer τ}

theorem see_seeAll (obs : Observer τ) (p : Program) (r : Reduction) (stored : List Float)
    (events : List Event) (seen : τ) : (⟨stored, obs.seeAll events seen⟩ : Machine τ).see obs p r =
      ⟨stored, obs.seeAll (events ++ [(p, r)]) seen⟩ := by
  rw [Observer.seeAll_append]
  rfl

theorem reduce_none (h : p.instruction? i = none) (m : Machine τ) :
    reduce obs p table ctx i m = (.error (.invalid i .pastEnd), m) := by
  rw [reduce.eq_def]
  simp only [h]

theorem reduce_matrix {index : Nat} (h : p.instruction? i = some (.matrix index)) (m : Machine τ) :
    reduce obs p table ctx i m = (.error (.invalid i .strayMatrix), m) := by
  rw [reduce.eq_def]
  simp only [h]

theorem reduce_operandEnds {op : Opcode} {err : EvalError}
    (h : p.instruction? i = some (.apply op)) (hends : p.operandEnds i op.operands = .error err)
    (m : Machine τ) : reduce obs p table ctx i m = (.error err, m) := by
  rw [reduce]
  simp only [h]
  split
  · rename_i herror
    cases hends.symm.trans herror
    rfl
  · rename_i hok
    cases hends.symm.trans hok

theorem reduce_lookup_eq {ends : List Nat} (h : p.instruction? i = some (.apply .lookup))
    (hends : p.operandEnds i Opcode.lookup.operands = .ok ends) (m : Machine τ) :
    reduce obs p table ctx i m =
      match p.instruction? (ends.getD 0 0) with
      | some (.matrix index) =>
        match reduceAll obs p table ctx i (ends.drop 1)
            (fun e he => Program.operandEnds_lt hends e (List.mem_of_mem_drop he)) m with
        | (.error e, m) => (.error e, m)
        | (.ok args, m) =>
          match Cells.readIndexed table index (args.getD 0 0.0) ctx with
          | .ok x => (.ok x, m.see obs p ⟨i, .apply .lookup, args, x⟩)
          | .error e => (.error e, m)
      | _ => (.error (.invalid i .noMatrix), m) := by
  rw [reduce]
  simp only [h]
  split
  · rename_i e herror
    rw [hends] at herror
    cases herror
  · rename_i ends' hends'
    obtain rfl : ends = ends' := Except.ok.inj (hends.symm.trans hends')
    rfl

end Cases

theorem reduceAll_faithful {bound : Nat} {ends : List Nat} (hends : ∀ e ∈ ends, e < bound)
    (ih : ∀ i < bound, Faithful fun _ obs => reduce obs p table ctx i) :
    Faithful fun _ obs => reduceAll obs p table ctx bound ends hends := by
  induction ends with
  | nil =>
    refine fun stored => ⟨.ok [], stored, [], fun τ obs seen => ?_⟩
    simp only [reduceAll, Observer.seeAll_nil]
  | cons e ends ihEnds =>
    intro stored
    obtain ⟨result, stored₁, events, hfirst⟩ := ih e (hends e List.mem_cons_self) stored
    obtain ⟨results, stored₂, more, hrest⟩ :=
      ihEnds (fun e he => hends e (List.mem_cons_of_mem _ he)) stored₁
    simp only [reduceAll, hfirst]
    cases result with
    | error err => exact ⟨_, _, _, fun _ _ _ => rfl⟩
    | ok x =>
      simp only [hrest, ← Observer.seeAll_append]
      cases results with
      | error err => exact ⟨_, _, _, fun _ _ _ => rfl⟩
      | ok xs => exact ⟨_, _, _, fun _ _ _ => rfl⟩

section Apply

variable {ends : List Nat} (ih : ∀ j < i, Faithful fun _ obs => reduce obs p table ctx j)

include ih

theorem reduce_operator_faithful {op : Operator}
    (h : p.instruction? i = some (.apply (.operator op)))
    (hends : p.operandEnds i (Opcode.operator op).operands = .ok ends) :
    Faithful fun _ obs => reduce obs p table ctx i := by
  intro stored
  obtain ⟨results, stored₁, events, hall⟩ :=
    reduceAll_faithful (Program.operandEnds_lt hends) ih stored
  simp only [reduce_operator h hends, hall]
  cases results with
  | error err => exact ⟨_, _, _, fun _ _ _ => rfl⟩
  | ok args =>
    simp only [see_seeAll]
    exact ⟨_, _, _, fun _ _ _ => rfl⟩

theorem reduce_function_faithful {f : Builtin}
    (h : p.instruction? i = some (.apply (.function f)))
    (hends : p.operandEnds i (Opcode.function f).operands = .ok ends) :
    Faithful fun _ obs => reduce obs p table ctx i := by
  intro stored
  obtain ⟨results, stored₁, events, hall⟩ :=
    reduceAll_faithful (Program.operandEnds_lt hends) ih stored
  simp only [reduce_function h hends, hall]
  cases results with
  | error err => exact ⟨_, _, _, fun _ _ _ => rfl⟩
  | ok args =>
    simp only
    rcases f.eval (args.getD 0 0.0) (args.getD 1 0.0) (args.getD 2 0.0) stored₁ with
      err | ⟨x, stored₂⟩
    · exact ⟨_, _, _, fun _ _ _ => rfl⟩
    · simp only [see_seeAll]
      exact ⟨_, _, _, fun _ _ _ => rfl⟩

theorem reduce_lookup_faithful (h : p.instruction? i = some (.apply .lookup))
    (hends : p.operandEnds i Opcode.lookup.operands = .ok ends) :
    Faithful fun _ obs => reduce obs p table ctx i := by
  intro stored
  have hsubscript : ∀ e ∈ ends.drop 1, e < i :=
    fun e he => Program.operandEnds_lt hends e (List.mem_of_mem_drop he)
  obtain ⟨results, stored₁, events, hall⟩ := reduceAll_faithful hsubscript ih stored
  simp only [reduce_lookup_eq h hends]
  split
  · simp only [hall]
    cases results with
    | error err => exact ⟨_, _, _, fun _ _ _ => rfl⟩
    | ok args =>
      simp only
      split
      · simp only [see_seeAll]
        exact ⟨_, _, _, fun _ _ _ => rfl⟩
      · exact ⟨_, _, _, fun _ _ _ => rfl⟩
  · exact ⟨_, stored, [], fun _ _ _ => rfl⟩

end Apply

theorem reduce_faithful (p : Program) (table : σ) (ctx : κ) (i : Nat) :
    Faithful fun _ obs => reduce obs p table ctx i := by
  induction i using Nat.strong_induction_on with
  | h i ih =>
    cases h : p.instruction? i with
    | none => exact fun _ => ⟨_, _, [], fun _ _ _ => reduce_none h _⟩
    | some instruction =>
      cases instruction with
      | literal x =>
        intro stored
        simp only [reduce_literal h]
        exact ⟨.ok x, stored, [(p, ⟨i, .literal x, [], x⟩)], fun _ _ _ => rfl⟩
      | load index =>
        intro stored
        simp only [reduce_load h]
        cases (Cells.read table index ctx : Except EvalError Float) with
        | error err => exact ⟨.error err, stored, [], fun _ _ _ => rfl⟩
        | ok x => exact ⟨.ok x, stored, [(p, ⟨i, .load index, [], x⟩)], fun _ _ _ => rfl⟩
      | matrix index => exact fun _ => ⟨_, _, [], fun _ _ _ => reduce_matrix h _⟩
      | apply op =>
        cases hends : p.operandEnds i op.operands with
        | error err =>
          exact fun _ => ⟨_, _, [], fun _ _ _ => reduce_operandEnds h hends _⟩
        | ok ends =>
          cases op with
          | lookup => exact reduce_lookup_faithful ih h hends
          | operator op => exact reduce_operator_faithful ih h hends
          | function f => exact reduce_function_faithful ih h hends

theorem evaluate_faithful (p : Program) (table : σ) (ctx : κ) :
    ∃ result events, ∀ (τ : Type) (obs : Observer τ) (seen : τ),
    evaluate obs p table ctx seen = (result, obs.seeAll events seen) := by
  unfold evaluate
  split
  · exact ⟨_, [], fun _ _ _ => rfl⟩
  · rename_i last _
    obtain ⟨result, stored, events, hreduce⟩ := reduce_faithful p table ctx last []
    refine ⟨result, events, fun τ obs seen => ?_⟩
    simp only [hreduce]

end Reduce

/-- Whether an instruction is a step of an evaluation of its own: a group is only a part of its
lookup. -/
def Program.isStep (p : Program) (i : Nat) : Bool :=
  match p.instruction? i with
  | some (.matrix _) => false
  | _ => true

/-- The steps of an evaluation that nothing fails in. -/
def Program.steps (p : Program) : List Nat := (List.range p.size).filter p.isStep

def indices (events : List Event) : List Nat := events.map fun event => event.2.index

section Steps

variable {σ κ : Type} [Cells σ κ] {p : Program} {table : σ} {ctx : κ} {i : Nat} {slot : Slot}
  {slots : List Slot} {stack stack' : List Item} {m m' : Machine (List Event)} {err : EvalError}

/-- What an instruction can fail of. -/
inductive Program.FailsAt (p : Program) (table : σ) (ctx : κ) (k : Nat) : EvalError → Prop where
  | read {i : Nat} {err : EvalError} : p.instruction? k = some (.load i) →
    Cells.read table i ctx = .error err → p.FailsAt table ctx k err
  | readIndexed {i : Nat} {y : Float} {err : EvalError} : p.instruction? k = some (.apply .lookup) →
    (∃ slot ∈ p.slots.toList, slot.instruction = .matrix i) →
    Cells.readIndexed table i y ctx = .error err → p.FailsAt table ctx k err
  | store {f : Builtin} {a b c : Float} {stored : List Float} {err : EvalError} :
    p.instruction? k = some (.apply (.function f)) → f.eval a b c stored = .error err →
    p.FailsAt table ctx k err

theorem forwardStep_steps {instruction : Instruction} (hi : p.instruction? i = some instruction)
    (h : forwardStep .log p table ctx i instruction stack m = (.ok stack', m')) :
    ∃ events, m'.seen = m.seen ++ events ∧ indices events = [i].filter p.isStep := by
  -- each instruction that is a step reports itself last of all
  have hstep : ∀ (stored : List Float) (r : Reduction), r.index = i → p.isStep i = true →
      (Machine.see ⟨stored, m.seen⟩ .log p r).seen = m.seen ++ [(p, r)] ∧
        indices [(p, r)] = [i].filter p.isStep := by
    rintro stored r rfl hr
    exact ⟨rfl, by rw [List.filter_cons_of_pos hr]; rfl⟩
  unfold forwardStep at h
  split at h
  · cases h
    exact ⟨_, hstep m.stored _ rfl (by rw [Program.isStep, hi])⟩
  · split at h
    · cases h
      exact ⟨_, hstep m.stored _ rfl (by rw [Program.isStep, hi])⟩
    · cases h
  · cases h
    refine ⟨[], (List.append_nil _).symm, ?_⟩
    rw [List.filter_cons_of_neg (by rw [Program.isStep, hi]; exact Bool.false_ne_true)]
    rfl
  · split at h
    · split at h
      · cases h
        exact ⟨_, hstep m.stored _ rfl (by rw [Program.isStep, hi])⟩
      · cases h
    · cases h
  · split at h
    · cases h
      exact ⟨_, hstep m.stored _ rfl (by rw [Program.isStep, hi])⟩
    · cases h
  · split at h
    · split at h
      · cases h
        exact ⟨_, hstep _ _ rfl (by rw [Program.isStep, hi])⟩
      · cases h
    · cases h

theorem forwardStep_failsAt {instruction : Instruction} (hi : p.instruction? i = some instruction)
    (hstack : p.Waiting stack)
    (h : forwardStep .log p table ctx i instruction stack m = (.error (.raised err), m')) :
    m' = m ∧ p.isStep i = true ∧ p.FailsAt table ctx i err := by
  unfold forwardStep at h
  split at h
  · cases h
  · split at h
    · cases h
    · rename_i hread
      cases h
      exact ⟨rfl, by rw [Program.isStep, hi], .read hi hread⟩
  · cases h
  · split at h
    · split at h
      · cases h
      · rename_i hread
        cases h
        have hgroup := hstack _ (List.mem_cons_of_mem _ List.mem_cons_self)
        exact ⟨rfl, by rw [Program.isStep, hi], .readIndexed hi hgroup hread⟩
    · cases h
  · split at h
    · cases h
    · cases h
  · split at h
    · split at h
      · cases h
      · rename_i heval
        cases h
        exact ⟨rfl, by rw [Program.isStep, hi], .store hi heval⟩
    · cases h

/-- The slots from an index on begin with the slot at the index. -/
theorem instruction?_of_drop {rest : List Slot} (h : p.slots.toList.drop i = slot :: rest) :
    p.instruction? i = some slot.instruction ∧ p.slots.toList.drop (i + 1) = rest ∧
      slot ∈ p.slots.toList := by
  have hget : p.slots.toList[i]? = some slot := by
    rw [← Nat.add_zero i, ← List.getElem?_drop, h]
    rfl
  rw [Program.instruction?, ← Array.getElem?_toList, hget]
  refine ⟨rfl, ?_, List.mem_of_getElem? hget⟩
  rw [← List.drop_drop, h, List.drop_succ_cons, List.drop_zero]

theorem forward_steps (hslots : p.slots.toList.drop i = slots)
    (h : forward .log p table ctx i slots stack m = (.ok stack', m')) :
    ∃ events, m'.seen = m.seen ++ events ∧
      indices events = (List.range' i slots.length).filter p.isStep := by
  induction slots generalizing i stack m with
  | nil =>
    cases h
    exact ⟨[], (List.append_nil _).symm, rfl⟩
  | cons slot slots ih =>
    obtain ⟨hi, hrest, -⟩ := instruction?_of_drop hslots
    rw [forward] at h
    split at h
    · rename_i stack₁ m₁ hstep
      obtain ⟨events, hseen, hindices⟩ := forwardStep_steps hi hstep
      obtain ⟨more, hseen', hindices'⟩ := ih hrest h
      refine ⟨events ++ more, ?_, ?_⟩
      · rw [hseen', hseen, List.append_assoc]
      · rw [List.length_cons, List.range'_succ, ← List.singleton_append, List.filter_append,
          ← hindices, ← hindices', indices, List.map_append]
        rfl
    · cases h

theorem forward_failsAt (hslots : p.slots.toList.drop i = slots) (hstack : p.Waiting stack)
    (h : forward .log p table ctx i slots stack m = (.error (.raised err), m')) :
    ∃ events k rest, m'.seen = m.seen ++ events ∧ p.FailsAt table ctx k err ∧
      (List.range' i slots.length).filter p.isStep = indices events ++ k :: rest := by
  induction slots generalizing i stack m with
  | nil => cases h
  | cons slot slots ih =>
    obtain ⟨hi, hrest, hmem⟩ := instruction?_of_drop hslots
    rw [List.length_cons, List.range'_succ, ← List.singleton_append, List.filter_append]
    rw [forward] at h
    split at h
    · rename_i stack₁ m₁ hstep
      obtain ⟨events, hseen, hindices⟩ := forwardStep_steps hi hstep
      obtain ⟨more, k, rest, hseen', hfails, hindices'⟩ :=
        ih hrest (forwardStep_waiting hmem hstack hstep) h
      refine ⟨events ++ more, k, rest, ?_, hfails, ?_⟩
      · rw [hseen', hseen, List.append_assoc]
      · rw [← hindices, hindices', indices, indices, indices, List.map_append, List.append_assoc]
    · rename_i halt m₁ hstep
      cases h
      obtain ⟨rfl, hstepped, hfails⟩ := forwardStep_failsAt hi hstack hstep
      rw [List.filter_cons_of_pos hstepped]
      exact ⟨[], i, _, (List.append_nil _).symm, hfails, rfl⟩

/-- Events that go through the steps of a program in order: all of them if there is a value, and else
those before the instruction that fails. -/
structure Recorded (p : Program) (table : σ) (ctx : κ) (result : Except EvalError Float)
    (events : List Event) : Prop where
  succeeded : ∀ x, result = .ok x → indices events = p.steps
  failed : ∀ err, result = .error err →
    ∃ k rest, p.FailsAt table ctx k err ∧ p.steps = indices events ++ k :: rest

theorem evaluate_recorded (t : Tree Variable) (table : σ) (ctx : κ) :
    Recorded t.program table ctx (evaluate .log t.program table ctx []).1
      (evaluate .log t.program table ctx []).2 := by
  have hpass := forwardPass_eq_evaluate .log t table ctx []
  have hsteps : t.program.steps =
      (List.range' 0 t.program.slots.toList.length).filter t.program.isStep := by
    rw [Program.steps, List.range_eq_range', Program.size, Array.length_toList]
  rw [forwardPass] at hpass
  rcases hforward : forward .log t.program table ctx 0 t.program.slots.toList [] ⟨[], []⟩ with
    ⟨outcome, m⟩
  rw [hforward] at hpass
  generalize evaluate .log t.program table ctx [] = ended at hpass ⊢
  obtain ⟨err | x, seen⟩ := ended
  · obtain ⟨rfl, rfl⟩ := Prod.mk.inj hpass
    obtain ⟨events, k, rest, hseen, hfails, hindices⟩ :=
      forward_failsAt List.drop_zero t.program.waiting_nil hforward
    constructor
    · intro x hx
      cases hx
    · intro err' herr
      cases herr
      refine ⟨k, rest, hfails, ?_⟩
      rw [hsteps, hseen, hindices]
      rfl
  · obtain ⟨rfl, rfl⟩ := Prod.mk.inj hpass
    obtain ⟨events, hseen, hindices⟩ := forward_steps List.drop_zero hforward
    constructor
    · intro y hy
      rw [hsteps, hseen, ← hindices]
      rfl
    · intro err herr
      cases herr

end Steps

end ChoiceModel.Expression

namespace ChoiceModel.Expression

open Store

variable {σ κ : Type} [Cells σ κ]

theorem valueSeen_faithful (e : Expression) (table : σ) (ctx : κ) :
    ∃ result events, ∀ (τ : Type) (obs : Observer τ) (seen : τ),
      e.valueSeen obs table ctx seen = (result, obs.seeAll events seen) := by
  unfold valueSeen
  split
  · exact evaluate_faithful _ table ctx
  · exact ⟨_, [], fun _ _ _ => rfl⟩

theorem solveSeen_faithful (e : Expression) (table : σ) (ctx : κ) :
    ∃ result table' events, ∀ (τ : Type) (obs : Observer τ) (seen : τ),
      e.solveSeen obs table ctx seen = (result, table', obs.seeAll events seen) := by
  obtain ⟨result, events, hvalue⟩ := e.valueSeen_faithful table ctx
  simp only [solveSeen, hvalue]
  cases result with
  | error err => exact ⟨_, _, _, fun _ _ _ => rfl⟩
  | ok x =>
    cases e.target? with
    | none => exact ⟨_, _, _, fun _ _ _ => rfl⟩
    | some i =>
      simp only
      cases (Cells.write table i x ctx : Except EvalError σ) with
      | error err => exact ⟨_, _, _, fun _ _ _ => rfl⟩
      | ok table' => exact ⟨_, _, _, fun _ _ _ => rfl⟩

end ChoiceModel.Expression
