import ChoiceModel.Proofs.Expression.Output
import ChoiceModel.Proofs.Expression.Passes

/-! What one lexeme does to a builder, case by case. A lexeme that compiles makes exactly one of
these moves; everything about whole texts goes back to them. -/

namespace ChoiceModel.Expression

open Store

variable {σ : Type} [Resolver σ]

/-- The markers that a comma may follow. -/
def Marker.IsOpen : Marker → Prop
  | .group _ | .comma => True
  | .operator _ | .call .. => False

/-- The moves of a builder at a token, between the tokens before and after it. -/
inductive Move (previous next : Option Token) (position : Nat) :
    Token → Builder → σ → Builder → σ → Prop where
  | number (x : Float) (b : Builder) (s : σ) :
    Move previous next position (.number x) b s (b.operand (.literal x) none) s
  | call {name : String} {op : Opcode} (b : Builder) (s : σ) :
    Opcode.ofName? name = some op → next.any Token.isOpenParen = true →
    Move previous next position (.name name) b s
      { b with markers := .call op position :: b.markers } s
  | matrix {name : String} {i : Nat} {b : Builder} {s s' : σ} :
    Opcode.ofName? name = none → next.any Token.isOpenParen = false →
    (previous.any Token.isOpenParen && b.awaitsMatrix) = true →
    Resolver.resolveArray name s = (some i, s') →
    Move previous next position (.name name) b s (b.operand (.matrix i) (some name)) s'
  | load {name : String} {i : Nat} {b : Builder} {s s' : σ} :
    Opcode.ofName? name = none → next.any Token.isOpenParen = false →
    (previous.any Token.isOpenParen && b.awaitsMatrix) = false →
    Resolver.resolveRead name s = (some i, s') →
    Move previous next position (.name name) b s (b.operand (.load i) (some name)) s'
  | open (b : Builder) (s : σ) :
    Move previous next position (.symbol .openParen) b s
      { b with markers := .group b.output.operands.length :: b.markers } s
  | comma {m : Marker} {ms : List Marker} {out : Output} {b : Builder} (s : σ) :
    settle 0 position b.markers b.output = .ok (m :: ms, out) → m.IsOpen →
    Move previous next position (.symbol .comma) b s ⟨.comma :: m :: ms, out⟩ s
  | group {d : Nat} {ms : List Marker} {out : Output} {b : Builder} (s : σ) :
    settle 0 position b.markers b.output = .ok (.group d :: ms, out) →
    (∀ op start rest, ms ≠ .call op start :: rest) → out.operands.length - d = 1 →
    Move previous next position (.symbol .closeParen) b s ⟨ms, out⟩ s
  | apply {k d start : Nat} {op : Opcode} {ms : List Marker} {out out' : Output} {b : Builder}
    (s : σ) :
    settle 0 position b.markers b.output =
      .ok (List.replicate k .comma ++ .group d :: .call op start :: ms, out) →
    k + 1 = op.operands → out.operands.length - d = op.operands →
    out.emit op position = .ok out' →
    Move previous next position (.symbol .closeParen) b s ⟨ms, out'⟩ s
  | operator {op : Operator} {ms : List Marker} {out : Output} {b : Builder} (s : σ) :
    settle op.precedence position b.markers b.output = .ok (ms, out) →
    Move previous next position (.symbol (.operator op)) b s ⟨.operator op :: ms, out⟩ s

namespace Builder

theorem replicate_comma_append_dropWhile (ms : List Marker) :
    List.replicate (ms.takeWhile (· == .comma)).length .comma ++ ms.dropWhile (· == .comma) = ms := by
  have hcommas : ms.takeWhile (· == .comma) =
      List.replicate (ms.takeWhile (· == .comma)).length Marker.comma := by
    refine List.eq_replicate_of_mem fun m hm => ?_
    have hall := List.all_takeWhile (l := ms) (p := (· == .comma))
    exact beq_iff_eq.mp (List.all_eq_true.mp hall m hm)
  rw [← hcommas, List.takeWhile_append_dropWhile]

theorem comma_eq_ok_iff {b b' : Builder} {position : Nat} :
    b.comma position = .ok b' ↔ ∃ m ms out, settle 0 position b.markers b.output = .ok (m :: ms, out) ∧
      m.IsOpen ∧ b' = ⟨.comma :: m :: ms, out⟩ := by
  unfold comma
  constructor
  · intro h
    split at h
    · rename_i depth ms out hsettle
      cases h
      exact ⟨_, _, _, hsettle, trivial, rfl⟩
    · rename_i ms out hsettle
      cases h
      exact ⟨_, _, _, hsettle, trivial, rfl⟩
    · cases h
    · cases h
  · rintro ⟨m, ms, out, hsettle, hopen, rfl⟩
    cases m with
    | group depth => simp only [hsettle]
    | comma => simp only [hsettle]
    | operator op => exact hopen.elim
    | call op start => exact hopen.elim

theorem operator_eq_ok_iff {b b' : Builder} {op : Operator} {position : Nat} :
    b.operator op position = .ok b' ↔ ∃ ms out,
      settle op.precedence position b.markers b.output = .ok (ms, out) ∧
        b' = ⟨.operator op :: ms, out⟩ := by
  unfold operator
  constructor
  · intro h
    split at h
    · rename_i ms out hsettle
      cases h
      exact ⟨_, _, hsettle, rfl⟩
    · cases h
  · rintro ⟨ms, out, hsettle, rfl⟩
    simp only [hsettle]

theorem close_group {b : Builder} {position depth : Nat} {ms : List Marker} {out : Output}
    (hsettle : settle 0 position b.markers b.output = .ok (.group depth :: ms, out))
    (hcall : ∀ op start rest, ms ≠ .call op start :: rest)
    (hcount : out.operands.length - depth = 1) :
    b.close position = .ok ⟨ms, out⟩ := by
  unfold close
  simp only [hsettle, List.takeWhile_cons, List.dropWhile_cons]
  rcases ms with _ | ⟨m, ms⟩
  · simp [hcount]
  · cases m with
    | call op start => exact (hcall op start ms rfl).elim
    | group _ => simp [hcount]
    | comma => simp [hcount]
    | operator _ => simp [hcount]

theorem close_apply {b : Builder} {position k depth start : Nat} {op : Opcode} {ms : List Marker}
    {out out' : Output}
    (hsettle : settle 0 position b.markers b.output =
      .ok (List.replicate k .comma ++ .group depth :: .call op start :: ms, out))
    (hcommas : k + 1 = op.operands) (hcount : out.operands.length - depth = op.operands)
    (hemit : out.emit op position = .ok out') :
    b.close position = .ok ⟨ms, out'⟩ := by
  have hall : ∀ m ∈ List.replicate k Marker.comma, (m == .comma) = true := fun m hm =>
    beq_iff_eq.mpr (List.eq_of_mem_replicate hm)
  have htake : (List.replicate k Marker.comma ++ .group depth :: .call op start :: ms).takeWhile
      (· == .comma) = List.replicate k .comma := by
    rw [List.takeWhile_append_of_pos hall]
    simp
  have hdrop : (List.replicate k Marker.comma ++ .group depth :: .call op start :: ms).dropWhile
      (· == .comma) = .group depth :: .call op start :: ms := by
    rw [List.dropWhile_append_of_pos hall]
    simp
  unfold close
  simp [hsettle, htake, hdrop, hcommas, hcount, hemit]

theorem close_eq_ok {b b' : Builder} {position : Nat} (h : b.close position = .ok b') :
    ∃ k depth ms out, settle 0 position b.markers b.output =
        .ok (List.replicate k .comma ++ .group depth :: ms, out) ∧
      ((k = 0 ∧ (∀ op start rest, ms ≠ .call op start :: rest) ∧
          out.operands.length - depth = 1 ∧ b' = ⟨ms, out⟩) ∨
        ∃ op start rest out', ms = .call op start :: rest ∧ k + 1 = op.operands ∧
          out.operands.length - depth = op.operands ∧ out.emit op position = .ok out' ∧
          b' = ⟨rest, out'⟩) := by
  unfold close at h
  split at h
  · cases h
  · rename_i markers out hsettle
    have hmarkers := replicate_comma_append_dropWhile markers
    simp only at h
    split at h
    · rename_i depth op start ms hdrop
      split at h
      · rename_i hcounts
        simp only [Bool.and_eq_true, beq_iff_eq] at hcounts
        split at h
        · rename_i out' hemit
          cases h
          rw [hdrop] at hmarkers
          refine ⟨_, depth, _, out, hmarkers ▸ hsettle, .inr ?_⟩
          exact ⟨op, start, ms, out', rfl, hcounts.2, hcounts.1, hemit, rfl⟩
        · cases h
      · cases h
    · rename_i depth ms hcall hdrop
      rw [hdrop] at hmarkers
      split at h
      · rename_i hcommas hcount
        cases h
        refine ⟨0, depth, _, _, ?_, .inl ⟨rfl, fun op start rest heq => ?_, hcount, rfl⟩⟩
        · rw [hcommas] at hmarkers
          rw [hmarkers, hsettle]
        · exact hcall op start rest heq
      · cases h
      · cases h
      · cases h
    · cases h

end Builder

theorem Move.step_eq {previous next : Option Token} {l : Lexeme} {b b' : Builder} {s s' : σ}
    (h : Move previous next l.position l.token b s b' s') :
    step previous next l b s = (.ok b', s') := by
  unfold step
  generalize l.token = token at h ⊢
  cases h with
  | number x => rfl
  | call _ _ hname hnext => simp [nameStep, hname, hnext]
  | matrix hname hnext hbase hresolve => simp [nameStep, hname, hnext, hbase, hresolve]
  | load hname hnext hbase hresolve => simp [nameStep, hname, hnext, hbase, hresolve]
  | «open» => rfl
  | comma _ hsettle hopen =>
    exact congrArg (·, s) (Builder.comma_eq_ok_iff.mpr ⟨_, _, _, hsettle, hopen, rfl⟩)
  | group _ hsettle hcall hcount => exact congrArg (·, s) (Builder.close_group hsettle hcall hcount)
  | apply _ hsettle hcommas hcount hemit =>
    exact congrArg (·, s) (Builder.close_apply hsettle hcommas hcount hemit)
  | operator _ hsettle =>
    exact congrArg (·, s) (Builder.operator_eq_ok_iff.mpr ⟨_, _, hsettle, rfl⟩)

theorem Move.of_nameStep {previous next : Option Token} {name : String} {position : Nat}
    {b b' : Builder} {s s' : σ} (h : nameStep previous next name position b s = (.ok b', s')) :
    Move previous next position (.name name) b s b' s' := by
  unfold nameStep at h
  split at h
  · rename_i op hname
    split at h
    · rename_i hnext
      cases h
      exact .call b s hname hnext
    · cases h
  · rename_i hname
    split at h
    · cases h
    · rename_i hnext
      have hnext := Bool.eq_false_iff.mpr hnext
      split at h
      · rename_i hbase
        split at h
        · rename_i i s hresolve
          cases h
          exact .matrix hname hnext hbase hresolve
        · cases h
      · rename_i hbase
        have hbase := Bool.eq_false_iff.mpr hbase
        split at h
        · rename_i i s hresolve
          cases h
          exact .load hname hnext hbase hresolve
        · cases h

theorem Move.of_symbol {previous next : Option Token} {sym : Symbol} {position : Nat}
    {b b' : Builder} (s : σ) (h : b.symbol sym position = .ok b') :
    Move previous next position (.symbol sym) b s b' s := by
  unfold Builder.symbol at h
  split at h
  · cases h
    exact .open b s
  · obtain ⟨m, ms, out, hsettle, hopen, rfl⟩ := Builder.comma_eq_ok_iff.mp h
    exact .comma s hsettle hopen
  · obtain ⟨k, depth, ms, out, hsettle, hcases⟩ := Builder.close_eq_ok h
    obtain ⟨rfl, hcall, hcount, rfl⟩ | ⟨op, start, rest, out', rfl, hcommas, hcount, hemit, rfl⟩ :=
      hcases
    · exact .group s hsettle hcall hcount
    · exact .apply s hsettle hcommas hcount hemit
  · cases h
  · cases h
  · obtain ⟨ms, out, hsettle, rfl⟩ := Builder.operator_eq_ok_iff.mp h
    exact .operator s hsettle

/-- A lexeme compiles exactly when it makes a move. -/
theorem step_eq_ok_iff {previous next : Option Token} {l : Lexeme} {b b' : Builder} {s s' : σ} :
    step previous next l b s = (.ok b', s') ↔
      Move previous next l.position l.token b s b' s' := by
  refine ⟨fun h => ?_, Move.step_eq⟩
  unfold step at h
  split at h
  · rename_i x hx
    cases h
    rw [hx]
    exact .number x b s
  · rename_i name hname
    rw [hname]
    exact .of_nameStep h
  · rename_i sym hsym
    rw [hsym]
    cases hok : b.symbol sym l.position with
    | error e =>
      rw [hok] at h
      cases h
    | ok b₁ =>
      rw [hok] at h
      cases h
      exact .of_symbol s hok

inductive Moves (next : Option Token) :
    Option Token → List Lexeme → Builder → σ → Builder → σ → Prop where
  | nil (previous : Option Token) (b : Builder) (s : σ) : Moves next previous [] b s b s
  | cons {previous : Option Token} {l : Lexeme} {ls : List Lexeme} {b b₁ b₂ : Builder}
    {s s₁ s₂ : σ} :
    Move previous ((ls.head?.map Lexeme.token).or next) l.position l.token b s b₁ s₁ →
    Moves next (some l.token) ls b₁ s₁ b₂ s₂ → Moves next previous (l :: ls) b s b₂ s₂

/-- The token in front of what follows some lexemes. -/
theorem lastToken_cons (l : Lexeme) (ls : List Lexeme) (previous : Option Token) :
    ((l :: ls).getLast?.map Lexeme.token).or previous =
      (ls.getLast?.map Lexeme.token).or (some l.token) := by
  rw [← List.getLast?_map, List.map_cons, getLast?_cons_or, List.getLast?_map]

namespace Moves

theorem append {next previous : Option Token} {ls ms : List Lexeme} {b b₁ b₂ : Builder}
    {s s₁ s₂ : σ}
    (h₁ : Moves ((ms.head?.map Lexeme.token).or next) previous ls b s b₁ s₁)
    (h₂ : Moves next ((ls.getLast?.map Lexeme.token).or previous) ms b₁ s₁ b₂ s₂) :
    Moves next previous (ls ++ ms) b s b₂ s₂ := by
  induction ls generalizing previous b s with
  | nil =>
    cases h₁
    exact h₂
  | cons l ls ih =>
    cases h₁ with
    | cons hmove hmoves =>
      rw [lastToken_cons] at h₂
      refine .cons ?_ (ih hmoves h₂)
      cases ls with
      | nil => exact hmove
      | cons _ _ => exact hmove

theorem run_eq {stop : Nat} {previous : Option Token} {ls : List Lexeme} {b b' : Builder}
    {s s' : σ} (h : Moves none previous ls b s b' s') :
    run stop previous ls b s = (Builder.finish stop b'.markers b'.output, s') := by
  generalize hnext : none = next at h
  induction h with
  | nil _ _ _ => rfl
  | cons hmove _ ih =>
    subst hnext
    rw [Option.or_none] at hmove
    rw [run, step_eq_ok_iff.mpr hmove]
    exact ih

end Moves

theorem run_eq_ok {stop : Nat} {previous : Option Token} {ls : List Lexeme} {b : Builder}
    {s s' : σ} {p : Program} (h : run stop previous ls b s = (.ok p, s')) :
    ∃ b', Moves none previous ls b s b' s' ∧
      Builder.finish stop b'.markers b'.output = .ok p := by
  induction ls generalizing previous b s with
  | nil =>
    obtain ⟨hfinish, rfl⟩ := Prod.mk.inj h
    exact ⟨b, .nil _ _ _, hfinish⟩
  | cons l ls ih =>
    rw [run] at h
    split at h
    · rename_i b₁ s₁ hstep
      obtain ⟨b', hmoves, hfinish⟩ := ih h
      have hmove := step_eq_ok_iff.mp hstep
      rw [← Option.or_none (o := ls.head?.map Lexeme.token)] at hmove
      exact ⟨b', .cons hmove hmoves, hfinish⟩
    · cases h

theorem emit_eq_error {op : Opcode} {position : Nat} {out : Output} {e : SyntaxError}
    (h : out.emit op position = .error e) : ∃ fault, e = .malformed fault position := by
  unfold Output.emit at h
  simp only at h
  repeat' split at h
  all_goals cases h
  all_goals exact ⟨_, rfl⟩

theorem settle_eq_error {level position : Nat} {ms : List Marker} {out : Output} {e : SyntaxError}
    (h : settle level position ms out = .error e) : ∃ fault, e = .malformed fault position := by
  induction ms generalizing out with
  | nil => cases h
  | cons m ms ih =>
    cases m with
    | operator op =>
      rw [settle] at h
      split at h
      · split at h
        · exact ih h
        · rename_i hemit
          cases h
          exact emit_eq_error hemit
      · cases h
    | group depth => cases h
    | comma => cases h
    | call op start => cases h

/-- Operators, the one on top first, each combine the two trees on top of the pieces. -/
inductive Folds : List Operator → List Piece → List Piece → Prop where
  | nil (ps : List Piece) : Folds [] ps ps
  | cons {op : Operator} {ops : List Operator} {left right : Tree Variable} {ps qs : List Piece} :
    Folds ops (.tree (.operator op left right) :: ps) qs →
    Folds (op :: ops) (.tree right :: .tree left :: ps) qs

theorem emit_operator_eq_ok {op : Operator} {ps : List Piece} {position : Nat} {out : Output}
    (h : (Output.ofPieces ps).emit (.operator op) position = .ok out) :
    ∃ left right rest, ps = .tree right :: .tree left :: rest ∧
      out = Output.ofPieces (.tree (.operator op left right) :: rest) := by
  have hemit := h
  obtain ⟨taken, rest, rfl, hlen, haccepts, -⟩ := Output.emit_eq_ok h
  obtain ⟨right, left, rfl⟩ : ∃ right left, taken = [right, left] := List.length_eq_two.mp hlen
  cases right with
  | matrix v => cases haccepts
  | tree right =>
    cases left with
    | matrix v => cases haccepts
    | tree left =>
      refine ⟨left, right, rest, rfl, ?_⟩
      rw [List.cons_append, List.cons_append, List.nil_append, Output.emit_operator] at hemit
      exact (Except.ok.inj hemit).symm

/-- Settling folds the operators that it takes from the markers, and stops at one that binds more
loosely. -/
theorem settle_eq_ok {level position : Nat} {markers ms : List Marker} {ps : List Piece}
    {out : Output} (h : settle level position markers (.ofPieces ps) = .ok (ms, out)) :
    ∃ ops qs, markers = ops.map .operator ++ ms ∧ out = .ofPieces qs ∧ Folds ops ps qs ∧
      ∀ op rest, ms = .operator op :: rest → op.precedence < level := by
  induction markers generalizing ps with
  | nil =>
    cases h
    exact ⟨[], ps, rfl, rfl, .nil ps, fun _ _ heq => nomatch heq⟩
  | cons m markers ih =>
    cases m with
    | operator op =>
      rw [settle] at h
      split at h
      · rename_i hle
        split at h
        · rename_i out₁ hemit
          obtain ⟨left, right, rest, rfl, rfl⟩ := emit_operator_eq_ok hemit
          obtain ⟨ops, qs, rfl, rfl, hfolds, hloose⟩ := ih h
          exact ⟨op :: ops, qs, rfl, rfl, .cons hfolds, hloose⟩
        · cases h
      · rename_i hlt
        cases h
        refine ⟨[], ps, rfl, rfl, .nil ps, fun op' rest heq => ?_⟩
        cases heq
        exact Nat.lt_of_not_le hlt
    | group depth =>
      cases h
      exact ⟨[], ps, rfl, rfl, .nil ps, fun _ _ heq => nomatch heq⟩
    | comma =>
      cases h
      exact ⟨[], ps, rfl, rfl, .nil ps, fun _ _ heq => nomatch heq⟩
    | call op start =>
      cases h
      exact ⟨[], ps, rfl, rfl, .nil ps, fun _ _ heq => nomatch heq⟩

/-- A text ends well when settling leaves one operand and no marker. -/
theorem finish_eq_ok_iff {position : Nat} {markers : List Marker} {out : Output} {p : Program} :
    Builder.finish position markers out = .ok p ↔ ∃ out' start,
      settle 0 position markers out = .ok ([], out') ∧ out'.operands = [start] ∧
        out'.program = p := by
  induction markers generalizing out with
  | nil =>
    simp only [Builder.finish, settle, Except.ok.injEq, Prod.mk.injEq, true_and]
    constructor
    · intro h
      split at h
      · cases h
      · rename_i start hoperands
        exact ⟨out, start, rfl, hoperands, Except.ok.inj h⟩
      · cases h
    · rintro ⟨_, start, rfl, hoperands, rfl⟩
      simp only [hoperands]
  | cons m markers ih =>
    cases m with
    | operator op =>
      simp only [Builder.finish, settle, Nat.zero_le, if_true]
      cases out.emit (.operator op) position with
      | ok out₁ => exact ih
      | error e => simp
    | group depth => simp [Builder.finish, settle]
    | comma => simp [Builder.finish, settle]
    | call op start => simp [Builder.finish, settle]

theorem finish_ofPieces_eq_ok {position : Nat} {markers : List Marker} {ps : List Piece}
    {p : Program} (h : Builder.finish position markers (.ofPieces ps) = .ok p) :
    ∃ ops q, markers = ops.map .operator ∧ Folds ops ps [q] ∧
      p = (Output.ofPieces [q]).program := by
  obtain ⟨out, start, hsettle, hoperands, rfl⟩ := finish_eq_ok_iff.mp h
  obtain ⟨ops, qs, rfl, rfl, hfolds, -⟩ := settle_eq_ok hsettle
  obtain ⟨q, rfl⟩ : ∃ q, qs = [q] := by
    rw [← List.length_eq_one_iff, ← Output.length_starts, ← Output.operands_ofPieces, hoperands]
    rfl
  exact ⟨ops, q, List.append_nil _, hfolds, rfl⟩

section Keeps

variable {P : Program → Prop}
  (hP : ∀ p op start, P p → P (p.push ⟨.apply op, start, none⟩))

include hP

theorem emit_keeps {op : Opcode} {position : Nat} {out out' : Output}
    (h : out.emit op position = .ok out') (hout : P out.program) : P out'.program := by
  have happend : ∀ taken kept, P (Output.emit.append out op taken kept).program :=
    fun taken kept => hP out.program op _ hout
  unfold Output.emit at h
  simp only at h
  split at h
  · cases h
  · split at h
    · split at h
      · cases h
        exact happend _ _
      · cases h
    · split at h
      · cases h
      · cases h
        exact happend _ _

/-- Settling pushes operators alone, so it keeps whatever these do not harm. -/
theorem settle_keeps {level position : Nat} {markers ms : List Marker} {out out' : Output}
    (h : settle level position markers out = .ok (ms, out')) (hout : P out.program) :
    P out'.program := by
  induction markers generalizing out with
  | nil =>
    cases h
    exact hout
  | cons m markers ih =>
    cases m with
    | operator op =>
      rw [settle] at h
      split at h
      · split at h
        · rename_i out₁ hemit
          exact ih h (emit_keeps hP hemit hout)
        · cases h
      · cases h
        exact hout
    | group depth =>
      cases h
      exact hout
    | comma =>
      cases h
      exact hout
    | call op start =>
      cases h
      exact hout

theorem finish_keeps {position : Nat} {markers : List Marker} {out : Output} {p : Program}
    (h : Builder.finish position markers out = .ok p) (hout : P out.program) : P p := by
  obtain ⟨out', start, hsettle, -, rfl⟩ := finish_eq_ok_iff.mp h
  exact settle_keeps hP hsettle hout

end Keeps

end ChoiceModel.Expression
