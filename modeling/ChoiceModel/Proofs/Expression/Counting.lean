import ChoiceModel.Proofs.Expression.Reading
import ChoiceModel.Store.DataTable
import Mathlib

/-! The operands of a text that compiles are one more than its separators, so it is a sentence unless
two operands stand side by side. -/

namespace ChoiceModel.Expression

open Store Output

/-- Whether a marker stands for a separator, which makes one operand out of two when it is gone. -/
def Marker.separates : Marker → Bool
  | .operator _ | .comma => true
  | .group _ | .call .. => false

/-- The operands of a builder that no separator takes. -/
def Builder.spare (b : Builder) : Int :=
  b.output.operands.length - b.markers.countP Marker.separates

def surplus (ts : List Token) : Int := leaves ts - separators ts

theorem spare_operand (b : Builder) (i : Instruction) (name : Option String) :
    (b.operand i name).spare = b.spare + 1 := by
  simp only [Builder.spare, Builder.operand, push, List.length_cons]
  omega

theorem surplus_number (x : Float) (ts : List Token) :
    surplus (.number x :: ts) = surplus ts + 1 := by
  simp only [surplus, leaves, separators]
  omega

theorem surplus_name {name : String} {ts : List Token} (h : opensCall ts = false) :
    surplus (.name name :: ts) = surplus ts + 1 := by
  rw [surplus, surplus, leaves, separators, h, if_neg Bool.false_ne_true]
  omega

theorem countP_operators (ops : List Operator) (ms : List Marker) :
    (ops.map Marker.operator ++ ms).countP Marker.separates =
      ops.length + ms.countP Marker.separates := by
  induction ops with
  | nil => rw [List.map_nil, List.nil_append, List.length_nil, Nat.zero_add]
  | cons op ops ih =>
    rw [List.map_cons, List.cons_append, List.countP_cons_of_pos rfl, ih, List.length_cons,
      Nat.add_right_comm]

theorem countP_commas (k : Nat) (ms : List Marker) :
    (List.replicate k Marker.comma ++ ms).countP Marker.separates =
      k + ms.countP Marker.separates := by
  have hcomma : Marker.comma.separates = true := rfl
  rw [List.countP_append, List.countP_replicate, if_pos hcomma]

theorem Folds.length_eq {ops : List Operator} {ps qs : List Piece} (h : Folds ops ps qs) :
    qs.length + ops.length = ps.length := by
  induction h with
  | nil ps => rfl
  | cons _ ih =>
    simp only [List.length_cons] at ih ⊢
    omega

theorem length_of_emit {op : Opcode} {ps : List Piece} {position : Nat} {out : Output}
    (h : (Output.ofPieces ps).emit op position = .ok out) :
    out.operands.length + op.operands = ps.length + 1 := by
  obtain ⟨taken, rest, rfl, hlen, -, rfl⟩ := emit_eq_ok h
  simp only [consume, List.length_cons, length_starts, List.length_append, hlen]
  omega

namespace Tiled

variable {σ : Type} [Resolver σ] {previous : Option Token} {b b' : Builder} {s s' : σ}
  {ps : List Piece}

theorem spare_settle {level position : Nat} {ms : List Marker} {out : Output}
    (h : Tiled previous b ps) (hsettle : settle level position b.markers b.output = .ok (ms, out)) :
    (Builder.mk ms out).spare = b.spare ∧ ∃ qs, out = .ofPieces qs := by
  rw [h.output] at hsettle
  obtain ⟨ops, qs, hmarkers, rfl, hfolds, -⟩ := Expression.settle_eq_ok hsettle
  refine ⟨?_, qs, rfl⟩
  have hlen := hfolds.length_eq
  simp only [Builder.spare, h.output, hmarkers, countP_operators, operands_ofPieces, length_starts]
  omega

/-- A token changes the operands of a builder as it changes those of the text. -/
theorem spare_move {position : Nat} {t : Token} {rest : List Token} (h : Tiled previous b ps)
    (hmove : Move previous rest.head? position t b s b' s') :
    b'.spare + surplus rest = b.spare + surplus (t :: rest) := by
  cases hmove with
  | number x =>
    rw [spare_operand, surplus_number]
    omega
  | call _ _ _ hnext =>
    have hcall : opensCall rest = true := hnext
    simp only [Builder.spare, surplus, leaves, separators, hcall, if_true,
      List.countP_cons_of_neg, Marker.separates, Bool.false_eq_true, not_false_eq_true]
  | matrix _ hnext _ _ =>
    rw [spare_operand, surplus_name hnext]
    omega
  | load _ hnext _ _ =>
    rw [spare_operand, surplus_name hnext]
    omega
  | «open» =>
    simp only [Builder.spare, surplus, leaves, separators, List.countP_cons_of_neg,
      Marker.separates, Bool.false_eq_true, not_false_eq_true]
  | @comma m ms out _ _ hsettle _ =>
    obtain ⟨hspare, -⟩ := h.spare_settle hsettle
    rw [← hspare]
    simp only [Builder.spare, surplus, leaves, separators, List.countP_cons_of_pos (l := m :: ms)
      (rfl : Marker.comma.separates = true)]
    omega
  | @group d ms out _ _ hsettle _ _ =>
    obtain ⟨hspare, -⟩ := h.spare_settle hsettle
    rw [← hspare]
    simp only [Builder.spare, surplus, leaves, separators, List.countP_cons_of_neg,
      Marker.separates, Bool.false_eq_true, not_false_eq_true]
  | @apply k d start op ms out out' _ _ hsettle hcommas _ hemit =>
    obtain ⟨hspare, qs, rfl⟩ := h.spare_settle hsettle
    have hlen := length_of_emit hemit
    rw [← hspare]
    simp only [Builder.spare, surplus, leaves, separators, countP_commas, List.countP_cons_of_neg,
      Marker.separates, Bool.false_eq_true, not_false_eq_true, operands_ofPieces, length_starts]
    omega
  | @operator op ms out _ _ hsettle =>
    obtain ⟨hspare, -⟩ := h.spare_settle hsettle
    rw [← hspare]
    simp only [Builder.spare, surplus, leaves, separators, List.countP_cons_of_pos (l := ms)
      (rfl : (Marker.operator op).separates = true)]
    omega

theorem spare_moves {ls : List Lexeme} (h : Tiled previous b ps)
    (hmoves : Moves none previous ls b s b' s') :
    b'.spare = b.spare + surplus (ls.map Lexeme.token) := by
  generalize hnext : (none : Option Token) = next at hmoves
  induction hmoves generalizing ps with
  | nil previous b s => exact (Int.add_zero _).symm
  | @cons previous l ls b b₁ b₂ s s₁ s₂ hmove _ ih =>
    subst hnext
    rw [Option.or_none, ← List.head?_map] at hmove
    have hfirst := h.spare_move hmove
    obtain ⟨ps', h'⟩ := h.move hmove
    rw [ih h', hfirst, List.map_cons]

end Tiled

section Run

variable {σ : Type} [Resolver σ] {s s' : σ}

theorem surplus_of_run {stop : Nat} {ls : List Lexeme} {p : Program}
    (h : run stop none ls {} s = (.ok p, s')) : surplus (ls.map Lexeme.token) = 1 := by
  obtain ⟨b, hmoves, hfinish⟩ := run_eq_ok h
  have hspare := Tiled.start.spare_moves hmoves
  obtain ⟨last, ps, htiled⟩ := Tiled.start.moves hmoves
  obtain ⟨out, start, hsettle, hoperands, -⟩ := finish_eq_ok_iff.mp hfinish
  obtain ⟨hsettled, -⟩ := htiled.spare_settle hsettle
  have hstart : ({} : Builder).spare = 0 := rfl
  have hend : (Builder.mk [] out).spare = 1 := by
    rw [Builder.spare, hoperands]
    rfl
  omega

theorem sentence_of_run {stop : Nat} {ls : List Lexeme} {p : Program}
    (h : run stop none ls {} s = (.ok p, s')) (hj : juxtaposed (ls.map Lexeme.token) = false) :
    Sentence .expression (ls.map Lexeme.token) := by
  have hsurplus := surplus_of_run h
  have hcount : leaves (ls.map Lexeme.token) = separators (ls.map Lexeme.token) + 1 := by
    rw [surplus] at hsurplus
    omega
  have hturn := (@alternates_of_not_juxtaposed _ false hj nofun).2 hcount
  obtain ⟨b, hmoves, hfinish⟩ := run_eq_ok h
  have hempty : Reads (ls.map Lexeme.token) false {} [] := .expects Context.start.expects
  have hreads := hempty.moves hturn hmoves
  exact hreads.finish_eq_ok hfinish

/-- A text that compiles is an infix sentence exactly if no two of its operands stand side by
side. -/
theorem compiled_sentence_iff {text : String} {c : Compiled} (h : compile text s = (.ok c, s')) :
    ∃ lexed, valueLexemes (valueOf text) = .ok lexed ∧
      (Sentence .expression (lexed.lexemes.map Lexeme.token) ↔
        juxtaposed (lexed.lexemes.map Lexeme.token) = false) := by
  obtain ⟨s₁, hvalue⟩ := compile_eq_ok h
  obtain ⟨lexed, hlexed, hrun⟩ := compileValue_eq_ok hvalue
  exact ⟨lexed, hlexed, Sentence.not_juxtaposed, sentence_of_run hrun⟩

set_option maxRecDepth 20000 in
theorem compiled_sentence_iff_sum :
    ∃ lexed, valueLexemes (valueOf "a + b") = .ok lexed ∧
      (Sentence .expression (lexed.lexemes.map Lexeme.token) ↔
        juxtaposed (lexed.lexemes.map Lexeme.token) = false) := by
  have hcompile : compile "a + b" (⟨#[("a", #[]), ("b", #[])], 0⟩ : DataTable) =
      (.ok ⟨⟨#[⟨.load 0, 0, some "a"⟩, ⟨.load 1, 1, some "b"⟩,
        ⟨.apply (.operator .add), 0, none⟩]⟩, none⟩, ⟨#[("a", #[]), ("b", #[])], 0⟩) := by
    cbv
  exact compiled_sentence_iff hcompile

set_option maxRecDepth 20000 in
/-- Postfix order compiles, and is no sentence. -/
theorem compiles_postfix :
    (∃ c, (compile "a b +" (⟨#[("a", #[]), ("b", #[])], 0⟩ : DataTable)).1 = .ok c) ∧
      ∃ lexed, valueLexemes (valueOf "a b +") = .ok lexed ∧
        ¬ Sentence .expression (lexed.lexemes.map Lexeme.token) := by
  have hcompile : compile "a b +" (⟨#[("a", #[]), ("b", #[])], 0⟩ : DataTable) =
      (.ok ⟨⟨#[⟨.load 0, 0, some "a"⟩, ⟨.load 1, 1, some "b"⟩,
        ⟨.apply (.operator .add), 0, none⟩]⟩, none⟩, ⟨#[("a", #[]), ("b", #[])], 0⟩) := by
    cbv
  have hlexed : valueLexemes (valueOf "a b +") =
      .ok ⟨[⟨.name "a", 0⟩, ⟨.name "b", 2⟩, ⟨.symbol (.operator .add), 4⟩], 5⟩ := by
    cbv
  refine ⟨⟨_, congrArg Prod.fst hcompile⟩, _, hlexed, fun hsentence => ?_⟩
  cases hsentence.not_juxtaposed

end Run

end ChoiceModel.Expression
