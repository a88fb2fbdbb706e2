import ChoiceModel.Proofs.Expression.Move
import ChoiceModel.Proofs.Expression.Passes

/-! What a compilation makes of the data source that its names are resolved in, whether it succeeds
or not, and what each instruction of a program may rely on there ever after. The names of a value are
resolved as they come; the target of an assignment is resolved last, after all that can fail. -/

namespace ChoiceModel.Expression

open Store

/-- The name that a text assigns to, if it is an assignment. -/
def assignedName? (text : String) : Option String :=
  (splitAssignment none text.toList).map fun parts => String.ofList (Text.trim parts.1)

/-- A relation between a data source and what resolving names to be read makes of it. -/
structure Reading {σ : Type} [Resolver σ] (R : σ → σ → Prop) : Prop where
  refl : ∀ s, R s s
  trans : ∀ s t u, R s t → R t u → R s u
  read : ∀ name s, R s (Resolver.resolveRead name s).2
  array : ∀ name s, R s (Resolver.resolveArray name s).2

/-- A relation between a data source and what any resolutions make of it. -/
structure Resolving {σ : Type} [Resolver σ] (R : σ → σ → Prop) : Prop extends Reading R where
  assign : ∀ name s, R s (Resolver.resolveAssign name s).2

section Reading

variable {σ : Type} [Resolver σ] {R : σ → σ → Prop} (hR : Reading R)

include hR

theorem nameStep_reading (previous next : Option Token) (name : String) (position : Nat)
    (b : Builder) (s : σ) : R s (nameStep previous next name position b s).2 := by
  unfold nameStep
  split
  · split
    · exact hR.refl s
    · exact hR.refl s
  · split
    · exact hR.refl s
    · split
      · have harray := hR.array name s
        rcases hresolve : Resolver.resolveArray name s with ⟨r, s'⟩
        rw [hresolve] at harray
        cases r with
        | none => exact harray
        | some i => exact harray
      · have hread := hR.read name s
        rcases hresolve : Resolver.resolveRead name s with ⟨r, s'⟩
        rw [hresolve] at hread
        cases r with
        | none => exact hread
        | some i => exact hread

theorem step_reading (previous next : Option Token) (l : Lexeme) (b : Builder) (s : σ) :
    R s (step previous next l b s).2 := by
  unfold step
  split
  · exact hR.refl s
  · exact nameStep_reading hR ..
  · exact hR.refl s

theorem Move.reading {previous next : Option Token} {l : Lexeme} {b b' : Builder} {s s' : σ}
    (h : Move previous next l.position l.token b s b' s') : R s s' := by
  have hstep := step_reading hR previous next l b s
  rw [h.step_eq] at hstep
  exact hstep

theorem Moves.reading {previous next : Option Token} {ls : List Lexeme} {b b' : Builder} {s s' : σ}
    (h : Moves next previous ls b s b' s') : R s s' := by
  induction h with
  | nil _ _ s => exact hR.refl s
  | cons hmove _ ih => exact hR.trans _ _ _ (hmove.reading hR) ih

theorem run_reading (stop : Nat) (previous : Option Token) (ls : List Lexeme) (b : Builder)
    (s : σ) : R s (run stop previous ls b s).2 := by
  induction ls generalizing previous b s with
  | nil => exact hR.refl s
  | cons l ls ih =>
    have hfirst := step_reading hR previous (ls.head?.map Lexeme.token) l b s
    rw [run]
    rcases hstep : step previous (ls.head?.map Lexeme.token) l b s with ⟨r, s₁⟩
    rw [hstep] at hfirst
    cases r with
    | error e => exact hfirst
    | ok b₁ => exact hR.trans _ _ _ hfirst (ih _ b₁ s₁)

theorem compileValue_reading (cs : List Char) (s : σ) : R s (compileValue cs s).2 := by
  unfold compileValue
  split
  · exact hR.refl s
  · exact run_reading hR ..

variable {text : String} {s s' : σ}

/-- A compilation that fails has only resolved names, the target at most without finding a place. -/
theorem compile_error_reading {e : SyntaxError} (h : compile text s = (.error e, s'))
    (hassign : ∀ name t t', Resolver.resolveAssign name t = (none, t') → R t t') : R s s' := by
  unfold compile at h
  split at h
  · have hvalue := compileValue_reading hR text.toList s
    split at h
    · cases h
    · rename_i hcompiled
      cases h
      rw [hcompiled] at hvalue
      exact hvalue
  · rename_i target value _
    have hvalue := compileValue_reading hR value s
    split at h
    · rename_i hcompiled
      cases h
      rw [hcompiled] at hvalue
      exact hvalue
    · rename_i hcompiled
      rw [hcompiled] at hvalue
      dsimp only at h
      split at h
      · cases h
        exact hvalue
      · split at h
        · cases h
        · rename_i hnone
          cases h
          exact hR.trans _ _ _ hvalue (hassign _ _ _ hnone)

/-- A compilation that succeeds has resolved the names that are read, and then the target, if any. -/
theorem compile_ok_reading {c : Compiled} (h : compile text s = (.ok c, s')) :
    R s s' ∨ ∃ name s₁ i, assignedName? text = some name ∧ R s s₁ ∧
      Resolver.resolveAssign name s₁ = (some i, s') ∧ c.target = some i := by
  cases hsplit : splitAssignment none text.toList with
  | none =>
    obtain ⟨hvalue, -⟩ := (compile_eq_ok_iff_of_not_split hsplit).mp h
    have hread := compileValue_reading hR text.toList s
    rw [hvalue] at hread
    exact .inl hread
  | some parts =>
    obtain ⟨s₁, i, hvalue, -, hassign, htarget⟩ := (compile_eq_ok_iff_of_split hsplit).mp h
    have hread := compileValue_reading hR parts.2 s
    rw [hvalue] at hread
    refine .inr ⟨String.ofList (Text.trim parts.1), s₁, i, ?_, hread, hassign, htarget⟩
    rw [assignedName?, hsplit, Option.map_some]

end Reading

section Resolving

variable {σ : Type} [Resolver σ] {R : σ → σ → Prop} (hR : Resolving R)

include hR

theorem compile_resolving (text : String) (s : σ) : R s (compile text s).2 := by
  unfold compile
  split
  · have hvalue := compileValue_reading hR.toReading text.toList s
    rcases hcompiled : compileValue text.toList s with ⟨r, s₁⟩
    rw [hcompiled] at hvalue
    cases r with
    | error e => exact hvalue
    | ok p => exact hvalue
  · rename_i target value _
    have hvalue := compileValue_reading hR.toReading value s
    rcases hcompiled : compileValue value s with ⟨r, s₁⟩
    rw [hcompiled] at hvalue
    cases r with
    | error e => exact hvalue
    | ok p =>
      simp only
      split
      · exact hvalue
      · have hassign := hR.trans _ _ _ hvalue (hR.assign (String.ofList (Text.trim target)) s₁)
        rcases hresolve : Resolver.resolveAssign (String.ofList (Text.trim target)) s₁ with ⟨r, s₂⟩
        rw [hresolve] at hassign
        cases r with
        | none => exact hassign
        | some i => exact hassign

end Resolving

/-- Every instruction of a program has the property. -/
def Program.Every (P : Instruction → Prop) (p : Program) : Prop :=
  ∀ slot ∈ p.slots.toList, P slot.instruction

section Every

variable {P P' : Instruction → Prop} {p : Program}

theorem Program.Every.imp (h : p.Every P) (himp : ∀ i, P i → P' i) : p.Every P' :=
  fun slot hslot => himp _ (h slot hslot)

theorem Program.every_empty (P : Instruction → Prop) : ({} : Program).Every P := fun _ h => nomatch h

theorem Program.Every.push {slot : Slot} (h : p.Every P) (hslot : P slot.instruction) :
    (p.push slot).Every P := by
  intro other hother
  rw [Program.push, Array.toList_push, List.mem_append, List.mem_singleton] at hother
  rcases hother with hother | rfl
  · exact h other hother
  · exact hslot

end Every

/-- What an instruction may rely on once its name has been resolved, and goes on to. -/
structure Supporting {σ : Type} [Resolver σ] (R : σ → σ → Prop) (Q : σ → Instruction → Prop) : Prop
    extends Resolving R where
  literal : ∀ s x, Q s (.literal x)
  apply : ∀ s op, Q s (.apply op)
  load : ∀ name s i s', Resolver.resolveRead name s = (some i, s') → Q s' (.load i)
  matrix : ∀ name s i s', Resolver.resolveArray name s = (some i, s') → Q s' (.matrix i)
  mono : ∀ s s' i, R s s' → Q s i → Q s' i

section Supporting

variable {σ : Type} [Resolver σ] {R : σ → σ → Prop} {Q : σ → Instruction → Prop}
  (hQ : Supporting R Q) {previous next : Option Token} {b b' : Builder} {s s' : σ}

include hQ

theorem Supporting.every_push (s : σ) (p : Program) (op : Opcode) (start : Nat)
    (hp : p.Every (Q s)) : (p.push ⟨.apply op, start, none⟩).Every (Q s) :=
  hp.push (hQ.apply s op)

theorem Move.every {position : Nat} {t : Token} (h : Move previous next position t b s b' s')
    (hb : b.output.program.Every (Q s)) : b'.output.program.Every (Q s') := by
  cases h with
  | number x => exact hb.push (hQ.literal s x)
  | call _ _ _ _ => exact hb
  | @matrix name i _ _ _ _ _ _ hresolve =>
    have hkept := hQ.array name s
    rw [hresolve] at hkept
    exact (hb.imp fun j => hQ.mono s s' j hkept).push (hQ.matrix name s i s' hresolve)
  | @load name i _ _ _ _ _ _ hresolve =>
    have hkept := hQ.read name s
    rw [hresolve] at hkept
    exact (hb.imp fun j => hQ.mono s s' j hkept).push (hQ.load name s i s' hresolve)
  | «open» => exact hb
  | comma _ hsettle _ => exact settle_keeps (hQ.every_push s) hsettle hb
  | group _ hsettle _ _ => exact settle_keeps (hQ.every_push s) hsettle hb
  | apply _ hsettle _ _ hemit =>
    exact emit_keeps (hQ.every_push s) hemit (settle_keeps (hQ.every_push s) hsettle hb)
  | operator _ hsettle => exact settle_keeps (hQ.every_push s) hsettle hb

theorem Moves.every {ls : List Lexeme} (h : Moves next previous ls b s b' s')
    (hb : b.output.program.Every (Q s)) : b'.output.program.Every (Q s') := by
  induction h with
  | nil _ _ _ => exact hb
  | cons hmove _ ih => exact ih (hmove.every hQ hb)

theorem compileValue_every {cs : List Char} {p : Program} (h : compileValue cs s = (.ok p, s')) :
    p.Every (Q s') := by
  rw [compileValue] at h
  split at h
  · cases h
  · obtain ⟨b, hmoves, hfinish⟩ := run_eq_ok h
    exact finish_keeps (hQ.every_push s') hfinish (hmoves.every hQ (Program.every_empty _))

theorem compile_every {text : String} {c : Compiled} (h : compile text s = (.ok c, s')) :
    c.program.Every (Q s') := by
  cases hsplit : splitAssignment none text.toList with
  | none =>
    obtain ⟨hvalue, -⟩ := (compile_eq_ok_iff_of_not_split hsplit).mp h
    exact compileValue_every hQ hvalue
  | some parts =>
    obtain ⟨s₁, i, hvalue, -, hassign, -⟩ := (compile_eq_ok_iff_of_split hsplit).mp h
    have hkept := hQ.assign (String.ofList (Text.trim parts.1)) s₁
    rw [hassign] at hkept
    exact (compileValue_every hQ hvalue).imp fun j => hQ.mono s₁ s' j hkept

end Supporting

end ChoiceModel.Expression
