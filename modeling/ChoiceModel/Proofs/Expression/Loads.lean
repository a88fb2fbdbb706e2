import ChoiceModel.Expression.Names
import ChoiceModel.Proofs.Expression.ForwardPass
import ChoiceModel.Proofs.Store.Variables

/-! The variables that a program loads. Each was resolved from a name of the text, and a program has
the same value over two tables that agree on them. -/

namespace ChoiceModel.Expression

open Store

def Program.loads (p : Program) : List Nat :=
  p.slots.toList.filterMap fun slot =>
    match slot.instruction with
    | .load i => some i
    | _ => none

theorem Program.loads_push_load (p : Program) (i start : Nat) (name : Option String) :
    (p.push ⟨.load i, start, name⟩).loads = p.loads ++ [i] := by
  simp [loads, push]

theorem Program.loads_push {slot : Slot} (p : Program) (h : ∀ i, slot.instruction ≠ .load i) :
    (p.push slot).loads = p.loads := by
  obtain ⟨instruction, start, name⟩ := slot
  cases instruction with
  | load i => exact (h i rfl).elim
  | literal x => simp [loads, push]
  | matrix i => simp [loads, push]
  | apply op => simp [loads, push]

theorem Program.loads_push_apply {loads : List Nat} (p : Program) (op : Opcode) (start : Nat)
    (h : p.loads = loads) : (p.push ⟨.apply op, start, none⟩).loads = loads :=
  (p.loads_push fun _ => Instruction.noConfusion).trans h

theorem loads_emit {op : Opcode} {position : Nat} {out out' : Output}
    (h : out.emit op position = .ok out') : out'.program.loads = out.program.loads :=
  emit_keeps Program.loads_push_apply h rfl

theorem loads_settle {level position : Nat} {markers ms : List Marker} {out out' : Output}
    (h : settle level position markers out = .ok (ms, out')) :
    out'.program.loads = out.program.loads :=
  settle_keeps Program.loads_push_apply h rfl

theorem loads_finish {position : Nat} {markers : List Marker} {out : Output} {p : Program}
    (h : Builder.finish position markers out = .ok p) : p.loads = out.program.loads :=
  finish_keeps Program.loads_push_apply h rfl

section Variables

variable {ο : Type} {v w : Variables ο} {previous next : Option Token} {b b' : Builder}

/-- The index `i` is bound under one of the names. -/
def BoundIn (v : Variables ο) (names : List String) (i : Nat) : Prop :=
  ∃ b, v.bindings[i]? = some b ∧ b.name ∈ names

theorem BoundIn.mono {names names' : List String} {i : Nat} (h : BoundIn v names i)
    (hvw : v.Extends w) (hnames : ∀ n ∈ names, n ∈ names') : BoundIn w names' i := by
  obtain ⟨b, hb, hname⟩ := h
  exact ⟨b, hvw.bindings i b hb, hnames _ hname⟩

/-- What has been resolved so far: names only, and a load for none but the names read. -/
structure Traced (names : List String) (p p' : Program) (v w : Variables ο) : Prop where
  extended : v.Extends w
  bound : ∀ i ∈ p'.loads, i ∈ p.loads ∨ BoundIn w names i

theorem Traced.of_loads {names : List String} {p p' : Program} (h : p'.loads = p.loads)
    (v : Variables ο) : Traced names p p' v v :=
  ⟨.refl v, fun _ hi => .inl (h ▸ hi)⟩

theorem Move.traced {position : Nat} {t : Token} (h : Move previous next position t b v b' w) :
    Traced t.variable?.toList b.output.program b'.output.program v w := by
  cases h with
  | number x =>
    have hloads : (b.operand (.literal x) none).output.program.loads = b.output.program.loads :=
      Program.loads_push _ fun _ => Instruction.noConfusion
    exact .of_loads hloads v
  | call _ _ _ _ => exact .of_loads rfl v
  | @matrix name j _ _ _ _ _ _ hresolve =>
    have hresolved := Variables.resolveArray_eq_some hresolve
    have hloads : (b.operand (.matrix j) (some name)).output.program.loads =
        b.output.program.loads := Program.loads_push _ fun _ => Instruction.noConfusion
    exact ⟨hresolved.extended, fun i hi => .inl (hloads ▸ hi)⟩
  | @load name j _ _ _ hname _ _ hresolve =>
    have hresolved := Variables.resolveRead_eq_some hresolve
    refine ⟨hresolved.extended, fun i hi => ?_⟩
    have hpush : i ∈ b.output.program.loads ++ [j] := by
      rw [← Program.loads_push_load]
      exact hi
    rcases List.mem_append.mp hpush with hi | hi
    · exact .inl hi
    · cases List.mem_singleton.mp hi
      obtain ⟨binding, hbinding, rfl⟩ := hresolved.named
      refine .inr ⟨binding, hbinding, ?_⟩
      unfold Token.variable?
      simp [hname]
  | «open» => exact .of_loads rfl v
  | comma _ hsettle _ => exact .of_loads (loads_settle hsettle) v
  | group _ hsettle _ _ => exact .of_loads (loads_settle hsettle) v
  | apply _ hsettle _ _ hemit => exact .of_loads ((loads_emit hemit).trans (loads_settle hsettle)) v
  | operator _ hsettle => exact .of_loads (loads_settle hsettle) v

def namesOf (ls : List Lexeme) : List String := ls.filterMap fun l => l.token.variable?

theorem namesOf_cons (l : Lexeme) (ls : List Lexeme) :
    namesOf (l :: ls) = l.token.variable?.toList ++ namesOf ls := by
  rw [namesOf, namesOf, List.filterMap_cons]
  cases l.token.variable? <;> rfl

theorem Moves.traced {ls : List Lexeme} (h : Moves next previous ls b v b' w) :
    Traced (namesOf ls) b.output.program b'.output.program v w := by
  induction h with
  | nil previous b v => exact .of_loads rfl v
  | @cons previous l ls b b₁ b₂ u v w hmove _ ih =>
    have hfirst := hmove.traced
    rw [namesOf_cons]
    refine ⟨hfirst.extended.trans ih.extended, fun i hi => ?_⟩
    -- loaded by the rest, by the first lexeme, or before
    rcases ih.bound i hi with hi | hi
    · rcases hfirst.bound i hi with hi | hi
      · exact .inl hi
      · exact .inr (hi.mono ih.extended fun n => List.mem_append_left _)
    · exact .inr (hi.mono (.refl w) fun n => List.mem_append_right _)

end Variables

section Agreement

variable {σ κ τ : Type} [Cells σ κ] {obs : Observer τ} {p : Program} {table table' : σ}
  {ctx ctx' : κ}

/-- The matrix groups that a program looks matrices up in. -/
def Program.groups (p : Program) : List Nat :=
  p.slots.toList.filterMap fun slot =>
    match slot.instruction with
    | .matrix i => some i
    | _ => none

theorem Program.Waiting.mem_groups {stack : List Item} (h : p.Waiting stack) {g : Nat}
    (hg : .group g ∈ stack) : g ∈ p.groups := by
  obtain ⟨slot, hslot, hmatrix⟩ := h g hg
  refine List.mem_filterMap.mpr ⟨slot, hslot, ?_⟩
  rw [hmatrix]

variable {g : EvalError → EvalError}

def Halt.mapRaised (g : EvalError → EvalError) : Halt → Halt
  | stuck => stuck
  | raised e => raised (g e)

/-- A step over a table that raises `g e` wherever the other one raises `e`. -/
theorem forwardStep_mapError (hg : ∀ e, e.IsOfStore → g e = e) {i : Nat} {instruction : Instruction}
    {stack : List Item} {m : Machine τ}
    (hread : ∀ j, instruction = .load j →
      Cells.read table' j ctx' = (Cells.read table j ctx).mapError g)
    (hindexed : ∀ j, .group j ∈ stack → ∀ y,
      Cells.readIndexed table' j y ctx' = (Cells.readIndexed table j y ctx).mapError g) :
    forwardStep obs p table' ctx' i instruction stack m =
      Prod.map (Except.mapError (Halt.mapRaised g)) id
        (forwardStep obs p table ctx i instruction stack m) := by
  cases instruction with
  | literal x => rfl
  | load j =>
    simp only [forwardStep, hread j rfl]
    cases Cells.read table j ctx with
    | error e => rfl
    | ok x => rfl
  | matrix j => rfl
  | apply op =>
    cases op with
    | lookup =>
      simp only [forwardStep]
      split
      · rename_i y j _
        rw [hindexed j (List.mem_cons_of_mem _ List.mem_cons_self)]
        cases Cells.readIndexed table j y ctx with
        | error e => rfl
        | ok x => rfl
      · rfl
    | operator op =>
      simp only [forwardStep]
      split
      · rfl
      · rfl
    | function f =>
      simp only [forwardStep]
      split
      · rename_i args stack' _
        cases heval : f.eval (args.getD 0 0.0) (args.getD 1 0.0) (args.getD 2 0.0) m.stored with
        | error e =>
          have hkept := hg e (Builtin.eval_eq_error heval)
          simp only [Prod.map, Except.mapError, Halt.mapRaised, hkept, id]
        | ok r => rfl
      · rfl

theorem forward_mapError (hg : ∀ e, e.IsOfStore → g e = e) {i : Nat} {slots : List Slot}
    {stack : List Item} {m : Machine τ}
    (hslots : ∀ slot ∈ slots, slot ∈ p.slots.toList) (hstack : p.Waiting stack)
    (hread : ∀ slot ∈ slots, ∀ j, slot.instruction = .load j →
      Cells.read table' j ctx' = (Cells.read table j ctx).mapError g)
    (hindexed : ∀ j ∈ p.groups, ∀ y,
      Cells.readIndexed table' j y ctx' = (Cells.readIndexed table j y ctx).mapError g) :
    forward obs p table' ctx' i slots stack m =
      Prod.map (Except.mapError (Halt.mapRaised g)) id (forward obs p table ctx i slots stack m) := by
  induction slots generalizing i stack m with
  | nil => rfl
  | cons slot slots ih =>
    have hslot := hslots slot List.mem_cons_self
    rw [forward, forward, forwardStep_mapError hg (hread slot List.mem_cons_self) fun j hj =>
      hindexed j (hstack.mem_groups hj)]
    rcases hstep : forwardStep obs p table ctx i slot.instruction stack m with ⟨_ | stack₁, m₁⟩
    · rfl
    · exact ih (fun slot' hslot' => hslots slot' (List.mem_cons_of_mem _ hslot'))
        (forwardStep_waiting hslot hstack hstep)
        fun slot' hslot' => hread slot' (List.mem_cons_of_mem _ hslot')

/-- A program has one value over two tables that differ in nothing that it reads but for the errors. -/
theorem evaluate_mapError (hg : ∀ e, e.IsOfStore → g e = e) {t : Tree Variable} {seen : τ}
    (hread : ∀ j ∈ t.program.loads,
      Cells.read table' j ctx' = (Cells.read table j ctx).mapError g)
    (hindexed : ∀ j ∈ t.program.groups, ∀ y,
      Cells.readIndexed table' j y ctx' = (Cells.readIndexed table j y ctx).mapError g) :
    evaluate obs t.program table' ctx' seen =
      Prod.map (Except.mapError g) id (evaluate obs t.program table ctx seen) := by
  have hslots : ∀ slot ∈ t.program.slots.toList, ∀ j, slot.instruction = .load j →
      Cells.read table' j ctx' = (Cells.read table j ctx).mapError g := by
    intro slot hslot j hload
    refine hread j (List.mem_filterMap.mpr ⟨slot, hslot, ?_⟩)
    rw [hload]
  have hfinished : ∀ r : Except EvalError Float × τ, finished (Prod.map (Except.mapError g) id r) =
      Prod.map (Except.mapError (Halt.mapRaised g)) id (finished r) := by
    rintro ⟨e | x, seen⟩
    · rfl
    · rfl
  refine finished_injective ?_
  rw [hfinished, ← forwardPass_eq_evaluate, ← forwardPass_eq_evaluate, forwardPass, forwardPass,
    forward_mapError hg (fun _ hslot => hslot) t.program.waiting_nil hslots hindexed]
  rfl

/-- A program has one value at two places of two tables that differ in nothing that it reads. -/
theorem evaluate_congr {t : Tree Variable} {seen : τ}
    (hread : ∀ j ∈ t.program.loads, Cells.read table' j ctx' = Cells.read table j ctx)
    (hindexed : ∀ j ∈ t.program.groups, ∀ y,
      Cells.readIndexed table' j y ctx' = Cells.readIndexed table j y ctx) :
    evaluate obs t.program table' ctx' seen = evaluate obs t.program table ctx seen := by
  have hid : ∀ r : Except EvalError Float, r.mapError id = r := by
    intro r
    cases r with
    | error e => rfl
    | ok x => rfl
  rw [evaluate_mapError (fun _ _ => rfl) (fun j hj => (hread j hj).trans (hid _).symm)
    fun j hj y => (hindexed j hj y).trans (hid _).symm]
  exact Prod.ext (hid _) rfl

end Agreement

end ChoiceModel.Expression
