import ChoiceModel.Proofs.Expression.Assignment
import ChoiceModel.Proofs.Expression.Marks
import Mathlib.Data.List.Forall2

/-! Where the lexemes of a text stand matters to its errors alone. A text that compiles does so behind a blank
as well, and to the same program. -/

namespace ChoiceModel.Expression

open Text Store

/-- The same marker, but for the place of a call. -/
inductive Marker.Like : Marker → Marker → Prop where
  | group (depth : Nat) : Like (.group depth) (.group depth)
  | comma : Like .comma .comma
  | operator (op : Operator) : Like (.operator op) (.operator op)
  | call (op : Opcode) (position place : Nat) : Like (.call op position) (.call op place)

structure Builder.Like (b c : Builder) : Prop where
  markers : List.Forall₂ Marker.Like b.markers c.markers
  output : b.output = c.output

section Builder

variable {b c : Builder} {ms ns ms' : List Marker} {out out' : Output} {level position : Nat}

theorem emit_placed {op : Opcode} (h : out.emit op position = .ok out') (place : Nat) :
    out.emit op place = .ok out' := by
  unfold Output.emit at h ⊢
  simp only at h ⊢
  split_ifs at h ⊢
  · exact h
  · exact h

/-- Only operators are settled, and they have no place. -/
theorem settle_placed (hms : List.Forall₂ Marker.Like ms ns)
    (h : settle level position ms out = .ok (ms', out')) (place : Nat) :
    ∃ ns', settle level place ns out = .ok (ns', out') ∧ List.Forall₂ Marker.Like ms' ns' := by
  induction hms generalizing out with
  | nil =>
    cases h
    exact ⟨[], rfl, .nil⟩
  | @cons m n ms ns hm hms ih =>
    cases hm with
    | group depth =>
      cases h
      exact ⟨_, rfl, .cons (.group depth) hms⟩
    | comma =>
      cases h
      exact ⟨_, rfl, .cons .comma hms⟩
    | call op position place =>
      cases h
      exact ⟨_, rfl, .cons (.call op position place) hms⟩
    | operator op =>
      rw [settle] at h ⊢
      split at h
      · rename_i hlevel
        rw [if_pos hlevel]
        split at h
        · rename_i hemit
          rw [emit_placed hemit place]
          exact ih h
        · cases h
      · rename_i hlevel
        cases h
        rw [if_neg hlevel]
        exact ⟨_, rfl, .cons (.operator op) hms⟩

theorem finish_placed (hms : List.Forall₂ Marker.Like ms ns) {p : Program}
    (h : Builder.finish position ms out = .ok p) (place : Nat) :
    Builder.finish place ns out = .ok p := by
  induction hms generalizing out with
  | nil =>
    rw [Builder.finish] at h ⊢
    split at h
    · cases h
    · exact h
    · cases h
  | cons hm _ ih =>
    cases hm with
    | operator op =>
      rw [Builder.finish] at h ⊢
      split at h
      · rename_i hemit
        rw [emit_placed hemit place]
        exact ih h
      · cases h
    | group depth => cases h
    | comma => cases h
    | call op position place => cases h

theorem Builder.Like.awaitsMatrix (h : b.Like c) : b.awaitsMatrix = c.awaitsMatrix := by
  obtain ⟨ms, _⟩ := b
  obtain ⟨ns, _⟩ := c
  obtain ⟨hmarkers, -⟩ := h
  unfold Builder.awaitsMatrix
  cases hmarkers with
  | nil => rfl
  | cons _ hms =>
    cases hms with
    | nil => rfl
    | cons hm _ =>
      cases hm with
      | call op _ _ => cases op <;> rfl
      | group depth => rfl
      | comma => rfl
      | operator op => rfl

theorem Marker.Like.replicate_comma {k depth start : Nat} {op : Opcode}
    (h : List.Forall₂ Marker.Like
      (List.replicate k .comma ++ .group depth :: .call op start :: ms) ns) :
    ∃ place ms', ns = List.replicate k .comma ++ .group depth :: .call op place :: ms' ∧
      List.Forall₂ Marker.Like ms ms' := by
  induction k generalizing ns with
  | zero =>
    cases h with
    | cons hgroup h =>
      cases hgroup
      cases h with
      | @cons _ n _ ms' hcall h =>
        cases hcall with
        | call _ _ place => exact ⟨place, ms', rfl, h⟩
  | succ k ih =>
    cases h with
    | cons hcomma h =>
      cases hcomma
      obtain ⟨place, ms', rfl, hms⟩ := ih h
      exact ⟨place, ms', rfl, hms⟩

end Builder

section Run

variable {σ : Type} [Resolver σ] {s s' : σ} {previous next : Option Token} {position stop : Nat}
  {b b' c : Builder} {ls ms : List Lexeme} {p : Program}

theorem Move.placed {t : Token} (h : Move previous next position t b s b' s') (hb : b.Like c)
    (place : Nat) : ∃ c', Move previous next place t c s c' s' ∧ b'.Like c' := by
  obtain ⟨hmarkers, houtput⟩ := hb
  have hoperand : ∀ i name, (b.operand i name).Like (c.operand i name) := fun i name =>
    ⟨hmarkers, congrArg (·.push i name) houtput⟩
  have hawaits : b.awaitsMatrix = c.awaitsMatrix := Builder.Like.awaitsMatrix ⟨hmarkers, houtput⟩
  cases h with
  | number x _ _ => exact ⟨_, .number x c s, hoperand _ _⟩
  | call _ _ hname hnext => exact ⟨_, .call c s hname hnext, .cons (.call _ _ _) hmarkers, houtput⟩
  | matrix hname hnext hbase hresolve =>
    rw [hawaits] at hbase
    exact ⟨_, .matrix hname hnext hbase hresolve, hoperand _ _⟩
  | load hname hnext hbase hresolve =>
    rw [hawaits] at hbase
    exact ⟨_, .load hname hnext hbase hresolve, hoperand _ _⟩
  | «open» _ _ =>
    refine ⟨_, .open c s, ?_, houtput⟩
    rw [houtput]
    exact .cons (.group _) hmarkers
  | comma _ hsettle hopen =>
    rw [houtput] at hsettle
    obtain ⟨ns, hsettled, hns⟩ := settle_placed hmarkers hsettle place
    cases hns with
    | @cons _ n _ ns hm hns =>
      have hopen' : n.IsOpen := by
        cases hm <;> exact hopen
      exact ⟨_, .comma s hsettled hopen', .cons .comma (.cons hm hns), rfl⟩
  | group _ hsettle hcall hcount =>
    rw [houtput] at hsettle
    obtain ⟨ns, hsettled, hns⟩ := settle_placed hmarkers hsettle place
    cases hns with
    | cons hm hns =>
      cases hm with
      | group depth =>
        refine ⟨_, .group s hsettled (fun op start rest heq => ?_) hcount, hns, rfl⟩
        subst heq
        cases hns with
        | cons hm _ =>
          cases hm with
          | call op position place => exact hcall op position _ rfl
  | apply _ hsettle hcommas hcount hemit =>
    rw [houtput] at hsettle
    obtain ⟨ns, hsettled, hns⟩ := settle_placed hmarkers hsettle place
    -- the call that is closed may have another place, which is gone with it
    obtain ⟨start, ms', rfl, hms⟩ := Marker.Like.replicate_comma hns
    exact ⟨_, .apply s hsettled hcommas hcount (emit_placed hemit place), hms, rfl⟩
  | @operator op _ _ _ _ hsettle =>
    rw [houtput] at hsettle
    obtain ⟨ns, hsettled, hns⟩ := settle_placed hmarkers hsettle place
    exact ⟨_, .operator s hsettled, .cons (.operator op) hns, rfl⟩

theorem Moves.placed (h : Moves next previous ls b s b' s')
    (htokens : ls.map Lexeme.token = ms.map Lexeme.token) (hb : b.Like c) :
    ∃ c', Moves next previous ms c s c' s' ∧ b'.Like c' := by
  induction h generalizing ms c with
  | nil previous b s =>
    cases ms with
    | nil => exact ⟨c, .nil previous c s, hb⟩
    | cons m ms => cases htokens
  | @cons previous l ls b b₁ b₂ s s₁ s₂ hmove hmoves ih =>
    cases ms with
    | nil => cases htokens
    | cons m ms =>
      obtain ⟨htoken, htokens⟩ := List.cons.inj htokens
      obtain ⟨c₁, hmove', hb₁⟩ := hmove.placed hb m.position
      obtain ⟨c₂, hmoves', hb₂⟩ := ih htokens hb₁
      rw [← List.head?_map, htokens, List.head?_map, htoken] at hmove'
      rw [htoken] at hmoves'
      exact ⟨c₂, .cons hmove' hmoves', hb₂⟩

/-- The same tokens compile to the same program wherever they stand. -/
theorem run_placed (h : run stop previous ls {} s = (.ok p, s'))
    (htokens : ls.map Lexeme.token = ms.map Lexeme.token) (stop' : Nat) :
    run stop' previous ms {} s = (.ok p, s') := by
  obtain ⟨b, hmoves, hfinish⟩ := run_eq_ok h
  obtain ⟨c, hmoves', hmarkers, houtput⟩ := hmoves.placed htokens ⟨.nil, rfl⟩
  rw [houtput] at hfinish
  rw [hmoves'.run_eq, finish_placed hmarkers hfinish stop']

theorem expandSubscripts_behind_blank {cs expanded : List Char} (h : expandSubscripts cs = .ok expanded) :
    expandSubscripts (' ' :: cs) = .ok (' ' :: expanded) := by
  have hblank : EndsName [' '] := EndsName.concat (by decide) []
  obtain ⟨hsteps, hexpanded⟩ := expandSubscripts_eq_ok_iff_steps.mp h
  refine expandSubscripts_eq_ok_iff_steps.mpr
    ⟨hsteps.lift (' ' :: ·) fun _ _ hstep => hstep.behind hblank, ?_⟩
  exact List.forall_mem_cons.mpr ⟨rfl, hexpanded⟩

theorem valueLexemes_behind_blank {cs : List Char} {lexed : Scan} (h : valueLexemes cs = .ok lexed) :
    ∃ moved, valueLexemes (' ' :: cs) = .ok moved ∧
      moved.lexemes.map Lexeme.token = lexed.lexemes.map Lexeme.token := by
  obtain ⟨hwhite, expanded, hexpanded, hbalance, hscan⟩ := valueLexemes_eq_ok_iff.mp h
  obtain ⟨moved, hmoved, htokens⟩ := (Scans.of_scanFrom hscan).exists_moved (0 + ' '.utf8Size)
  refine ⟨moved, valueLexemes_eq_ok_iff.mpr ⟨?_, _, expandSubscripts_behind_blank hexpanded, ?_,
    (Scans.blank rfl hmoved).scanFrom_eq⟩, htokens⟩
  · rw [List.all_cons, hwhite, Bool.and_false]
  · rw [checkBalance_eq_ok_iff] at hbalance ⊢
    exact hbalance

theorem compileValue_behind_blank {cs : List Char} (h : compileValue cs s = (.ok p, s')) :
    compileValue (' ' :: cs) s = (.ok p, s') := by
  obtain ⟨lexed, hlexed, hrun⟩ := compileValue_eq_ok_iff.mp h
  obtain ⟨moved, hmoved, htokens⟩ := valueLexemes_behind_blank hlexed
  exact compileValue_eq_ok_iff.mpr ⟨moved, hmoved, run_placed hrun htokens.symm moved.stop⟩

/-- A text that is no assignment is compiled as a value. -/
theorem compileValue_of_compile {text : String} {c : Compiled} (h : compile text s = (.ok c, s'))
    (htarget : c.target = none) : compileValue text.toList s = (.ok c.program, s') := by
  cases hsplit : splitAssignment none text.toList with
  | none => exact ((compile_eq_ok_iff_of_not_split hsplit).mp h).1
  | some parts =>
    obtain ⟨-, i, -, -, -, hi⟩ := (compile_eq_ok_iff_of_split hsplit).mp h
    cases htarget.symm.trans hi

end Run

end ChoiceModel.Expression
