import ChoiceModel.Proofs.Expression.Loads
import ChoiceModel.Proofs.Utility

/-! Compilation and the indices that it gets for names. It passes them on and never looks at them, so two
data sources that resolve the same names lead to the same errors, and to programs that differ in their
indices alone. -/

namespace ChoiceModel.Expression

open Store Text

/-- The instruction without the index of its variable. -/
def Instruction.blank : Instruction → Instruction
  | load _ => load 0
  | matrix _ => matrix 0
  | literal x => literal x
  | apply op => apply op

def Slot.blank (slot : Slot) : Slot := { slot with instruction := slot.instruction.blank }

def Program.blank (p : Program) : Program := ⟨p.slots.map Slot.blank⟩

def Output.blank (out : Output) : Output := { out with program := out.program.blank }

def Builder.blank (b : Builder) : Builder := { b with output := b.output.blank }

theorem Program.size_blank (p : Program) : p.blank.size = p.size := Array.size_map

theorem Program.blank_push (p : Program) (slot : Slot) :
    (p.push slot).blank = p.blank.push slot.blank := by
  rw [push, blank, Array.map_push]
  rfl

namespace Output

theorem isMatrixAt_blank (out : Output) (i : Nat) : out.blank.isMatrixAt i = out.isMatrixAt i := by
  unfold isMatrixAt
  have hslot : out.blank.program.instruction? i =
      (out.program.instruction? i).map Instruction.blank := by
    rw [blank, Program.instruction?, Program.blank, Array.getElem?_map, Program.instruction?,
      Option.map_map, Option.map_map]
    rfl
  rw [hslot]
  cases out.program.instruction? i with
  | none => rfl
  | some instruction => cases instruction <;> rfl

theorem hasBareMatrix_blank (out : Output) (next : Nat) (starts : List Nat) :
    out.blank.hasBareMatrix next starts = out.hasBareMatrix next starts := by
  induction starts generalizing next with
  | nil => rfl
  | cons start starts ih => rw [hasBareMatrix, hasBareMatrix, isMatrixAt_blank, ih]

theorem isLookup_blank (out : Output) (taken : List Nat) :
    out.blank.isLookup taken = out.isLookup taken := by
  unfold isLookup
  split
  · rw [isMatrixAt_blank]
  · rfl

theorem emit_blank (out : Output) (op : Opcode) (position : Nat) :
    out.blank.emit op position = (out.emit op position).map blank := by
  have happend : ∀ taken kept, emit.append out.blank op taken kept =
      (emit.append out op taken kept).blank := by
    intro taken kept
    rw [emit.append, emit.append, blank, blank, Program.blank_push]
    rfl
  have hoperands : out.blank.operands = out.operands := rfl
  unfold emit
  simp only [hoperands, isLookup_blank, hasBareMatrix_blank, happend]
  rw [show out.blank.program.size = out.program.size from Program.size_blank _]
  split
  · rfl
  · split
    · split <;> rfl
    · split <;> rfl

theorem push_blank (out : Output) (i : Instruction) (name : Option String) :
    (out.push i name).blank = out.blank.push i.blank name := by
  simp only [push, blank, Program.blank_push, Program.size_blank, Slot.blank]

end Output

theorem settle_blank (level position : Nat) (ms : List Marker) (out : Output) :
    settle level position ms out.blank =
      (settle level position ms out).map fun r => (r.1, r.2.blank) := by
  induction ms generalizing out with
  | nil => rfl
  | cons m ms ih =>
    cases m with
    | operator op =>
      rw [settle, settle]
      split
      · rw [Output.emit_blank]
        cases out.emit (.operator op) position with
        | ok out₁ => exact ih out₁
        | error e => rfl
      · rfl
    | group depth => rfl
    | comma => rfl
    | call op start => rfl

namespace Builder

theorem operator_blank (b : Builder) (op : Operator) (position : Nat) :
    b.blank.operator op position = (b.operator op position).map blank := by
  rw [operator, operator, blank, settle_blank]
  cases settle op.precedence position b.markers b.output with
  | ok r => rfl
  | error e => rfl

theorem comma_blank (b : Builder) (position : Nat) :
    b.blank.comma position = (b.comma position).map blank := by
  rw [comma, comma, blank, settle_blank]
  cases settle 0 position b.markers b.output with
  | error e => rfl
  | ok r =>
    obtain ⟨ms, out⟩ := r
    cases ms with
    | nil => rfl
    | cons m ms => cases m <;> rfl

theorem close_blank (b : Builder) (position : Nat) :
    b.blank.close position = (b.close position).map blank := by
  rw [close, close, blank, settle_blank]
  cases settle 0 position b.markers b.output with
  | error e => rfl
  | ok r =>
    obtain ⟨ms, out⟩ := r
    have hoperands : out.blank.operands = out.operands := rfl
    simp only [Except.map, hoperands, Output.emit_blank]
    generalize (ms.takeWhile (· == .comma)).length = commas
    split
    · rename_i op _ _ _
      split
      · cases out.emit op position <;> rfl
      · rfl
    · split <;> rfl
    · rfl

theorem symbol_blank (b : Builder) (sym : Symbol) (position : Nat) :
    b.blank.symbol sym position = (b.symbol sym position).map blank := by
  cases sym with
  | operator op => exact b.operator_blank op position
  | assign => rfl
  | bang => rfl
  | openParen => rfl
  | closeParen => exact b.close_blank position
  | comma => exact b.comma_blank position

theorem operand_blank (b : Builder) (i : Instruction) (name : Option String) :
    (b.operand i name).blank = b.blank.operand i.blank name := by
  rw [operand, blank, Output.push_blank]
  rfl

theorem finish_blank (position : Nat) (ms : List Marker) (out : Output) :
    finish position ms out.blank = (finish position ms out).map Program.blank := by
  induction ms generalizing out with
  | nil =>
    have hoperands : out.blank.operands = out.operands := rfl
    rw [finish, finish, hoperands]
    split <;> rfl
  | cons m ms ih =>
    cases m with
    | operator op =>
      rw [finish, finish, Output.emit_blank]
      cases out.emit (.operator op) position with
      | ok out₁ => exact ih out₁
      | error e => rfl
    | group depth => rfl
    | comma => rfl
    | call op start => rfl

end Builder

def Compiled.blank (c : Compiled) : Compiled := ⟨c.program.blank, c.target.map fun _ => 0⟩

def State.blank : State → State
  | pending => pending
  | compiled c => compiled c.blank
  | failed e => failed e

def blank (e : Expression) : Expression := ⟨e.text, e.state.blank⟩

theorem isSome_target?_blank (e : Expression) : e.blank.target?.isSome = e.target?.isSome := by
  obtain ⟨text, state⟩ := e
  cases state with
  | pending => rfl
  | compiled c => exact Option.isSome_map
  | failed e => rfl

theorem isSome_target?_congr {e e' : Expression} (h : e.blank = e'.blank) :
    e.target?.isSome = e'.target?.isSome := by
  rw [← isSome_target?_blank, h, isSome_target?_blank]

/-- The names that a value reads when it is compiled. -/
def valueNames (cs : List Char) : List String :=
  match valueLexemes cs with
  | .ok lexed => namesOf lexed.lexemes
  | .error _ => []

def readNames (text : String) : List String :=
  match splitAssignment none text.toList with
  | none => valueNames text.toList
  | some (_, value) => valueNames value

/-- Two attempts with the same error, or with values that `f` does not tell apart. -/
inductive SameOutcome {ε α β σ : Type} (f : α → β) (R : σ → σ → Prop) :
    Except ε α × σ → Except ε α × σ → Prop where
  | ok {a b : α} {s t : σ} : f a = f b → R s t → SameOutcome f R (.ok a, s) (.ok b, t)
  | error {s t : σ} (e : ε) : R s t → SameOutcome f R (.error e, s) (.error e, t)

/-- Two resolutions that both find an index, or both none. -/
inductive SameFinding {σ : Type} (R : σ → σ → Prop) : Option Nat × σ → Option Nat × σ → Prop where
  | found (i j : Nat) {s t : σ} : R s t → SameFinding R (some i, s) (some j, t)
  | missing {s t : σ} : R s t → SameFinding R (none, s) (none, t)

theorem SameFinding.of_isSome {σ : Type} {R : σ → σ → Prop} {x y : Option Nat × σ}
    (h : x.1.isSome = y.1.isSome) (hafter : R x.2 y.2) : SameFinding R x y := by
  obtain ⟨_ | i, s⟩ := x
  · obtain ⟨_ | j, t⟩ := y
    · exact .missing hafter
    · cases h
  · obtain ⟨_ | j, t⟩ := y
    · cases h
    · exact .found i j hafter

theorem SameOutcome.of_map_eq {ε α β σ : Type} {f : α → β} {R : σ → σ → Prop} {x y : Except ε α}
    {s t : σ} (h : x.map f = y.map f) (hst : R s t) : SameOutcome f R (x, s) (y, t) := by
  cases x with
  | ok a =>
    cases y with
    | ok b => exact .ok (Except.ok.inj h) hst
    | error e => cases h
  | error e =>
    cases y with
    | ok b => cases h
    | error e' =>
      cases h
      exact .error e hst

/-- A relation of data sources that find the same names of those that satisfy `P`, and that can be
assigned the same names. -/
structure Indistinct {σ : Type} [Resolver σ] (P : String → Prop) (R : σ → σ → Prop) : Prop where
  read : ∀ name s t, P name → R s t →
    SameFinding R (Resolver.resolveRead name s) (Resolver.resolveRead name t)
  array : ∀ name s t, P name → R s t →
    SameFinding R (Resolver.resolveArray name s) (Resolver.resolveArray name t)
  assign : ∀ name s t, R s t →
    SameFinding R (Resolver.resolveAssign name s) (Resolver.resolveAssign name t)

namespace Indistinct

variable {σ : Type} [Resolver σ] {P : String → Prop} {R : σ → σ → Prop} (hR : Indistinct P R)
  {b c : Builder} {s t : σ}

include hR

theorem nameStep (previous next : Option Token) {name : String}
    (hname : Opcode.ofName? name = none → P name) (position : Nat) (hb : b.blank = c.blank)
    (hst : R s t) : SameOutcome Builder.blank R (nameStep previous next name position b s)
      (nameStep previous next name position c t) := by
  obtain ⟨hmarkers, houtput⟩ := Builder.mk.inj hb
  have hawaits : b.awaitsMatrix = c.awaitsMatrix := by
    rw [Builder.awaitsMatrix, hmarkers]
    rfl
  have hoperand : ∀ {i j : Instruction}, i.blank = j.blank →
      (b.operand i (some name)).blank = (c.operand j (some name)).blank := fun hij => by
    rw [Builder.operand_blank, Builder.operand_blank, hb, hij]
  unfold Expression.nameStep
  cases hop : Opcode.ofName? name with
  | some op =>
    simp only
    split
    · refine .ok ?_ hst
      rw [Builder.blank, Builder.blank, hmarkers, houtput]
    · exact .error _ hst
  | none =>
    simp only [hawaits]
    split
    · exact .error _ hst
    · split
      · have harray := hR.array name s t (hname hop) hst
        generalize Resolver.resolveArray name s = x, Resolver.resolveArray name t = y at harray
        cases harray with
        | found i j hafter => exact .ok (hoperand rfl) hafter
        | missing hafter => exact .error _ hafter
      · have hread := hR.read name s t (hname hop) hst
        generalize Resolver.resolveRead name s = x, Resolver.resolveRead name t = y at hread
        cases hread with
        | found i j hafter => exact .ok (hoperand rfl) hafter
        | missing hafter => exact .error _ hafter

theorem step (previous next : Option Token) {l : Lexeme} (hl : ∀ name ∈ l.token.variable?, P name)
    (hb : b.blank = c.blank) (hst : R s t) :
    SameOutcome Builder.blank R (step previous next l b s) (step previous next l c t) := by
  unfold Expression.step
  split
  · refine .ok ?_ hst
    rw [Builder.operand_blank, Builder.operand_blank, hb]
  · rename_i name hname
    refine hR.nameStep previous next (fun hop => hl name ?_) l.position hb hst
    rw [hname, Token.variable?, hop]
    rfl
  · refine .of_map_eq ?_ hst
    rw [← Builder.symbol_blank, ← Builder.symbol_blank, hb]

theorem run (stop : Nat) (previous : Option Token) {ls : List Lexeme}
    (hls : ∀ name ∈ namesOf ls, P name) (hb : b.blank = c.blank) (hst : R s t) :
    SameOutcome Program.blank R (run stop previous ls b s) (run stop previous ls c t) := by
  induction ls generalizing previous b c s t with
  | nil =>
    obtain ⟨hmarkers, houtput⟩ := Builder.mk.inj hb
    refine .of_map_eq ?_ hst
    rw [← Builder.finish_blank, ← Builder.finish_blank, hmarkers, houtput]
  | cons l ls ih =>
    rw [namesOf_cons, List.forall_mem_append] at hls
    have hfirst := hR.step previous (ls.head?.map Lexeme.token)
      (fun name hname => hls.1 name (Option.mem_toList.mpr hname)) hb hst
    rw [Expression.run, Expression.run]
    generalize Expression.step previous (ls.head?.map Lexeme.token) l b s = x,
      Expression.step previous (ls.head?.map Lexeme.token) l c t = y at hfirst
    cases hfirst with
    | ok hbuilders hafter => exact ih _ hls.2 hbuilders hafter
    | error e hafter => exact .error e hafter

theorem compileValue {cs : List Char} (hcs : ∀ name ∈ valueNames cs, P name) (hst : R s t) :
    SameOutcome Program.blank R (compileValue cs s) (compileValue cs t) := by
  unfold Expression.compileValue
  unfold valueNames at hcs
  split
  · exact .error _ hst
  · rename_i lexed hlexed
    rw [hlexed] at hcs
    exact hR.run lexed.stop none hcs rfl hst

theorem compile {text : String} (htext : ∀ name ∈ readNames text, P name) (hst : R s t) :
    SameOutcome Compiled.blank R (compile text s) (compile text t) := by
  unfold Expression.compile
  unfold readNames at htext
  split
  · rename_i hsplit
    rw [hsplit] at htext
    have hvalue := hR.compileValue htext hst
    generalize Expression.compileValue text.toList s = x,
      Expression.compileValue text.toList t = y at hvalue
    cases hvalue with
    | ok hprograms hafter => exact .ok (by rw [Compiled.blank, Compiled.blank, hprograms]) hafter
    | error e hafter => exact .error e hafter
  · rename_i target value hsplit
    rw [hsplit] at htext
    have hvalue := hR.compileValue htext hst
    generalize Expression.compileValue value s = x, Expression.compileValue value t = y at hvalue
    cases hvalue with
    | error e hafter => exact .error e hafter
    | @ok _ _ s₁ t₁ hprograms hafter =>
      simp only
      split
      · exact .error _ hafter
      · have hassign := hR.assign (String.ofList (trim target)) s₁ t₁ hafter
        generalize Resolver.resolveAssign (String.ofList (trim target)) s₁ = x,
          Resolver.resolveAssign (String.ofList (trim target)) t₁ = y at hassign
        cases hassign with
        | found i j hfound => exact .ok (by rw [Compiled.blank, Compiled.blank, hprograms]; rfl) hfound
        | missing hmissing => exact .error _ hmissing

theorem ofText? {text : String} (htext : ∀ name ∈ readNames text, P name) (hst : R s t) :
    SameOutcome blank R (ofText? text s) (ofText? text t) := by
  have hcompile := hR.compile htext hst
  unfold Expression.ofText? parse
  simp only
  generalize Expression.compile text s = x, Expression.compile text t = y at hcompile
  cases hcompile with
  | ok hcompiled hafter => exact .ok (by rw [blank, blank, State.blank, State.blank, hcompiled]) hafter
  | error e hafter => exact .error e hafter

end Indistinct

end ChoiceModel.Expression
