import ChoiceModel.Proofs.Expression.Marks
import ChoiceModel.Proofs.Expression.Tiling

/-! How the markers of a builder lie on one another. Above a parenthesis stand commas and above them
operators, each of which binds more tightly than the one below it; a call has its parenthesis right
above it as soon as that is read. -/

namespace ChoiceModel.Expression

open Store

inductive Arranged : List Marker → Prop where
  | nil : Arranged []
  | operator {op : Operator} {ms : List Marker} :
    (∀ below rest, ms = .operator below :: rest → below.precedence < op.precedence) →
    Arranged ms → Arranged (.operator op :: ms)
  | comma {m : Marker} {ms : List Marker} : m.IsOpen → Arranged (m :: ms) →
    Arranged (.comma :: m :: ms)
  | group {d : Nat} {ms : List Marker} : Arranged ms → Arranged (.group d :: ms)
  | call {d position : Nat} {op : Opcode} {ms : List Marker} : Arranged ms →
    Arranged (.group d :: .call op position :: ms)

/-- A call that waits for its parenthesis: its name is the last token, and the parenthesis is next. -/
def Awaited (last next : Option Token) (op : Opcode) : Prop :=
  next.any Token.isOpenParen = true ∧
    ∃ name, last = some (.name name) ∧ Opcode.ofName? name = some op

/-- Markers between two tokens. -/
inductive Shaped (last next : Option Token) : List Marker → Prop where
  | arranged {ms : List Marker} : Arranged ms → Shaped last next ms
  | called {op : Opcode} {position : Nat} {ms : List Marker} : Awaited last next op →
    Arranged ms → Shaped last next (.call op position :: ms)

namespace Arranged

variable {ms : List Marker}

theorem not_call {op : Opcode} {position : Nat} (h : Arranged (.call op position :: ms)) : False := by
  cases h

theorem of_operators {ops : List Operator} (h : Arranged (ops.map .operator ++ ms)) :
    Arranged ms := by
  induction ops with
  | nil => exact h
  | cons op ops ih =>
    cases h with
    | operator _ h => exact ih h

theorem of_commas {k : Nat} (h : Arranged (List.replicate k .comma ++ ms)) : Arranged ms := by
  induction k with
  | zero => exact h
  | succ k ih =>
    refine ih ?_
    rw [List.replicate_succ, List.cons_append] at h
    generalize List.replicate k Marker.comma ++ ms = rest at h
    cases h with
    | comma _ h => exact h

/-- What stands above the innermost parenthesis, or above nothing. -/
theorem exists_top (h : Arranged ms) : ∃ (ops : List Operator) (k : Nat) (below : List Marker),
    ms = ops.map .operator ++ List.replicate k .comma ++ below ∧
      ops.Pairwise (fun upper lower => lower.precedence < upper.precedence) ∧
      (k = 0 ∧ below = [] ∨ ∃ d rest, below = .group d :: rest) := by
  induction h with
  | nil => exact ⟨[], 0, [], rfl, .nil, .inl ⟨rfl, rfl⟩⟩
  | @operator op ms htighter _ ih =>
    obtain ⟨ops, k, below, rfl, hops, hbelow⟩ := ih
    refine ⟨op :: ops, k, below, rfl, List.pairwise_cons.mpr ⟨fun lower hlower => ?_, hops⟩, hbelow⟩
    cases ops with
    | nil => cases hlower
    | cons first ops =>
      have hfirst := htighter first _ rfl
      rcases List.mem_cons.mp hlower with rfl | hlower
      · exact hfirst
      · exact Nat.lt_trans ((List.pairwise_cons.mp hops).1 lower hlower) hfirst
  | @comma m ms hopen _ ih =>
    obtain ⟨ops, k, below, heq, -, hbelow⟩ := ih
    cases ops with
    | cons op ops =>
      cases (List.cons.inj heq).1
      exact hopen.elim
    | nil =>
      refine ⟨[], k + 1, below, congrArg (Marker.comma :: ·) heq, .nil, .inr ?_⟩
      refine hbelow.resolve_left ?_
      rintro ⟨rfl, rfl⟩
      cases heq
  | group _ _ => exact ⟨[], 0, _, rfl, .nil, .inr ⟨_, _, rfl⟩⟩
  | call _ _ => exact ⟨[], 0, _, rfl, .nil, .inr ⟨_, _, rfl⟩⟩

/-- A call has a parenthesis right above it. -/
theorem group_above_call (h : Arranged ms) {above below : List Marker} {op : Opcode} {position : Nat}
    (heq : ms = above ++ .call op position :: below) : ∃ front d, above = front ++ [.group d] := by
  -- a marker more on top leaves the one above the call as it is
  have hcons : ∀ {m : Marker} {above : List Marker},
      (∃ front d, above = front ++ [Marker.group d]) → ∃ front d, m :: above = front ++ [.group d] := by
    rintro m _ ⟨front, d, rfl⟩
    exact ⟨m :: front, d, rfl⟩
  induction h generalizing above with
  | nil => cases above <;> cases heq
  | operator _ _ ih =>
    cases above with
    | nil => cases heq
    | cons m above => exact hcons (ih (List.cons.inj heq).2)
  | comma _ _ ih =>
    cases above with
    | nil => cases heq
    | cons m above => exact hcons (ih (List.cons.inj heq).2)
  | group _ ih =>
    cases above with
    | nil => cases heq
    | cons m above => exact hcons (ih (List.cons.inj heq).2)
  | @call d _ _ _ _ ih =>
    cases above with
    | nil => cases heq
    | cons m above =>
      obtain ⟨rfl, htail⟩ := List.cons.inj heq
      cases above with
      | nil => exact ⟨[], d, rfl⟩
      | cons m' above => exact hcons (hcons (ih (List.cons.inj htail).2))

end Arranged

/-- The parentheses that are open. -/
def groups : List Marker → Nat
  | [] => 0
  | .group _ :: ms => groups ms + 1
  | _ :: ms => groups ms

theorem groups_operators (ops : List Operator) (ms : List Marker) :
    groups (ops.map .operator ++ ms) = groups ms := by
  induction ops with
  | nil => rfl
  | cons op ops ih => exact ih

theorem groups_commas (k : Nat) (ms : List Marker) :
    groups (List.replicate k .comma ++ ms) = groups ms := by
  induction k with
  | zero => rfl
  | succ k ih => exact ih

/-- The parenthesis that a token is, if it is one. -/
def Token.parenthesis? : Token → Option Char
  | .symbol .openParen => some '('
  | .symbol .closeParen => some ')'
  | _ => none

/-- The parentheses among tokens, as a text. -/
def parenthesesOf (ts : List Token) : List Char := ts.filterMap Token.parenthesis?

theorem parenthesesOf_append (ts us : List Token) :
    parenthesesOf (ts ++ us) = parenthesesOf ts ++ parenthesesOf us := List.filterMap_append

theorem parenthesesOf_cons (t : Token) (ts : List Token) :
    parenthesesOf (t :: ts) = parenthesesOf [t] ++ parenthesesOf ts := parenthesesOf_append [t] ts

section Run

variable {σ : Type} [Resolver σ] {previous next : Option Token} {b b' : Builder} {s s' : σ}
  {ps : List Piece}

theorem Tiled.settle_arranged {level position : Nat} {ms : List Marker} {out : Output}
    (h : Tiled previous b ps) (hb : Arranged b.markers)
    (hsettle : settle level position b.markers b.output = .ok (ms, out)) :
    Arranged ms ∧ groups ms = groups b.markers ∧
      ∀ op rest, ms = .operator op :: rest → op.precedence < level := by
  rw [h.output] at hsettle
  obtain ⟨ops, qs, hmarkers, -, -, hloose⟩ := Expression.settle_eq_ok hsettle
  rw [hmarkers] at hb ⊢
  exact ⟨hb.of_operators, (groups_operators ops ms).symm, hloose⟩

/-- Only a parenthesis comes upon a call that waits for it. -/
theorem Shaped.arranged_of_next {t : Token} (h : Shaped previous (some t) b.markers)
    (ht : t.isOpenParen = false) : Arranged b.markers := by
  generalize b.markers = ms at h
  cases h with
  | arranged h => exact h
  | called hawaited _ =>
    rw [Awaited, Option.any_some, ht] at hawaited
    cases hawaited.1

theorem Shaped.move {position : Nat} {t : Token} (hb : Tiled previous b ps)
    (h : Shaped previous (some t) b.markers) (hmove : Move previous next position t b s b' s') :
    Shaped (some t) next b'.markers := by
  cases hmove with
  | number _ => exact .arranged (h.arranged_of_next rfl)
  | call _ _ hname hnext => exact .called ⟨hnext, _, rfl, hname⟩ (h.arranged_of_next rfl)
  | matrix _ _ _ _ => exact .arranged (h.arranged_of_next rfl)
  | load _ _ _ _ => exact .arranged (h.arranged_of_next rfl)
  | «open» =>
    refine .arranged ?_
    dsimp only
    generalize b.markers = ms at h
    cases h with
    | arranged h => exact .group h
    | called _ h => exact .call h
  | comma _ hsettle hopen =>
    obtain ⟨hms, -, -⟩ := hb.settle_arranged (h.arranged_of_next rfl) hsettle
    exact .arranged (.comma hopen hms)
  | group _ hsettle hcall _ =>
    obtain ⟨hms, -, -⟩ := hb.settle_arranged (h.arranged_of_next rfl) hsettle
    cases hms with
    | group hms => exact .arranged hms
    | call _ => exact absurd rfl (hcall _ _ _)
  | apply _ hsettle _ _ _ =>
    -- the parenthesis goes along with the call below it
    obtain ⟨hms, -, -⟩ := hb.settle_arranged (h.arranged_of_next rfl) hsettle
    cases hms.of_commas with
    | group hms => exact hms.not_call.elim
    | call hms => exact .arranged hms
  | operator _ hsettle =>
    obtain ⟨hms, -, hloose⟩ := hb.settle_arranged (h.arranged_of_next rfl) hsettle
    exact .arranged (.operator hloose hms)

/-- Every move keeps count of the parentheses that are open. -/
theorem groups_move {position : Nat} {t : Token} (hb : Tiled previous b ps)
    (h : Shaped previous (some t) b.markers) (hmove : Move previous next position t b s b' s') :
    Marks.parentheses.depthAfter? (groups b.markers) (parenthesesOf [t]) =
      some (groups b'.markers) := by
  cases hmove with
  | number _ => rfl
  | call _ _ _ _ => rfl
  | matrix _ _ _ _ => rfl
  | load _ _ _ _ => rfl
  | «open» => rfl
  | comma _ hsettle _ =>
    obtain ⟨-, hgroups, -⟩ := hb.settle_arranged (h.arranged_of_next rfl) hsettle
    rw [← hgroups]
    rfl
  | group _ hsettle _ _ =>
    obtain ⟨-, hgroups, -⟩ := hb.settle_arranged (h.arranged_of_next rfl) hsettle
    rw [← hgroups]
    rfl
  | apply _ hsettle _ _ _ =>
    obtain ⟨-, hgroups, -⟩ := hb.settle_arranged (h.arranged_of_next rfl) hsettle
    rw [← hgroups, groups_commas]
    rfl
  | operator _ hsettle =>
    obtain ⟨-, hgroups, -⟩ := hb.settle_arranged (h.arranged_of_next rfl) hsettle
    rw [← hgroups]
    rfl

/-- What holds of a builder between two tokens. -/
structure Standing (previous next : Option Token) (b : Builder) (ps : List Piece) : Prop where
  tiled : Tiled previous b ps
  shaped : Shaped previous next b.markers

theorem Standing.start (next : Option Token) : Standing none next {} [] := ⟨.start, .arranged .nil⟩

theorem Standing.move {position : Nat} {t : Token} (h : Standing previous (some t) b ps)
    (hmove : Move previous next position t b s b' s') : ∃ qs, Standing (some t) next b' qs := by
  obtain ⟨qs, htiled⟩ := h.tiled.move hmove
  exact ⟨qs, htiled, h.shaped.move h.tiled hmove⟩

theorem Standing.moves {ls : List Lexeme}
    (h : Standing previous ((ls.head?.map Lexeme.token).or next) b ps)
    (hmoves : Moves next previous ls b s b' s') :
    (∃ qs, Standing ((ls.getLast?.map Lexeme.token).or previous) next b' qs) ∧
      Marks.parentheses.depthAfter? (groups b.markers) (parenthesesOf (ls.map Lexeme.token)) =
        some (groups b'.markers) := by
  induction hmoves generalizing ps with
  | nil previous b s => exact ⟨⟨ps, h⟩, rfl⟩
  | @cons previous l ls b b₁ b₂ s s₁ s₂ hmove hmoves ih =>
    obtain ⟨qs, hnext⟩ := h.move hmove
    obtain ⟨⟨rs, hlast⟩, hdepth⟩ := ih hnext
    refine ⟨⟨rs, ?_⟩, ?_⟩
    · rw [lastToken_cons]
      exact hlast
    · rw [List.map_cons, parenthesesOf_cons, Marks.depthAfter?_append,
        groups_move h.tiled h.shaped hmove]
      exact hdepth

end Run

end ChoiceModel.Expression
