import ChoiceModel.Proofs.Expression.Move
import ChoiceModel.Proofs.Expression.Passes

/-! Every text that compiles, also one that reads oddly, compiles to the post-order of a tree. What
has to be kept away is a matrix group outside its lookup: each one among the pieces stands right
behind the parenthesis of a lookup that is still open. -/

namespace ChoiceModel.Expression

open Store

namespace Output

/-- The places of the matrix groups among pieces, the last one first, each the number of pieces
below it. -/
def matrices : List Piece → List Nat
  | [] => []
  | .tree _ :: ps => matrices ps
  | .matrix _ :: ps => ps.length :: matrices ps

theorem matrices_lt {ps : List Piece} {g : Nat} (h : g ∈ matrices ps) : g < ps.length := by
  induction ps with
  | nil => cases h
  | cons p ps ih =>
    cases p with
    | tree t => exact Nat.lt_succ_of_lt (ih h)
    | matrix v =>
      rcases List.mem_cons.mp h with rfl | h
      · exact Nat.lt_succ_self _
      · exact Nat.lt_succ_of_lt (ih h)

theorem matrices_map_tree_append (ts : List (Tree Variable)) (ps : List Piece) :
    matrices (ts.map .tree ++ ps) = matrices ps := by
  induction ts with
  | nil => rfl
  | cons t ts ih => exact ih

end Output

open Output

theorem Folds.matrices_eq {ops : List Operator} {ps qs : List Piece} (h : Folds ops ps qs) :
    matrices qs = matrices ps := by
  induction h with
  | nil ps => rfl
  | cons _ ih => exact ih

theorem exists_map_tree {ps : List Piece} (h : ps.any Piece.isMatrix = false) :
    ∃ ts : List (Tree Variable), ps = ts.map .tree := by
  induction ps with
  | nil => exact ⟨[], rfl⟩
  | cons p ps ih =>
    rw [List.any_cons, Bool.or_eq_false_iff] at h
    obtain ⟨ts, rfl⟩ := ih h.2
    cases p with
    | tree t => exact ⟨t :: ts, rfl⟩
    | matrix v => cases h.1

theorem exists_tree_of_accepts {op : Opcode} {taken : List Piece} (hop : op ≠ .lookup)
    (hlen : taken.length = op.operands) (h : accepts op taken = true) :
    ∃ (ts : List (Tree Variable)) (t : Tree Variable), taken = ts.map .tree ∧
      t.slots = .apply op (taken.reverse.map Piece.slots) := by
  cases op with
  | lookup => exact (hop rfl).elim
  | operator op =>
    obtain ⟨ts, rfl⟩ := exists_map_tree (Bool.not_eq_true' _ ▸ h)
    rw [List.length_map] at hlen
    obtain ⟨right, left, rfl⟩ : ∃ right left, ts = [right, left] := List.length_eq_two.mp hlen
    exact ⟨_, .operator op left right, rfl, rfl⟩
  | function f =>
    obtain ⟨ts, rfl⟩ := exists_map_tree (Bool.not_eq_true' _ ▸ h)
    rw [List.length_map] at hlen
    have hrev : ts.reverse.length = f.arity.operands := by
      rw [List.length_reverse]
      exact hlen
    refine ⟨_, .call f fun i => ts.reverse.get (i.cast hrev.symm), rfl, ?_⟩
    rw [Tree.slots, ← List.map_reverse, List.map_map]
    congr 1
    refine List.ext_getElem ?_ fun i _ _ => ?_
    · simp [← hrev]
    · simp [Piece.slots]

/-- How matrix groups belong to the markers: the parenthesis of a lookup may own the group at its
depth, and owns no other; whatever lies below is deeper. -/
inductive Owned : List Marker → List Nat → Prop where
  | nil : Owned [] []
  | skip {m : Marker} {ms : List Marker} {gs : List Nat} :
    (∀ d start rest, m :: ms ≠ .group d :: .call .lookup start :: rest) → Owned ms gs →
    Owned (m :: ms) gs
  | base {d start : Nat} {ms : List Marker} {gs : List Nat} : Owned ms gs →
    Owned (.group d :: .call .lookup start :: ms) (d :: gs)
  | vacant {d start : Nat} {ms : List Marker} {gs : List Nat} : (∀ g ∈ gs, g < d) → Owned ms gs →
    Owned (.group d :: .call .lookup start :: ms) gs

namespace Owned

theorem cons {m : Marker} {ms : List Marker} {gs : List Nat} (hm : ∀ d, m ≠ .group d)
    (h : Owned ms gs) : Owned (m :: ms) gs :=
  .skip (fun d _ _ heq => hm d (List.cons.inj heq).1) h

theorem of_cons {m : Marker} {ms : List Marker} {gs : List Nat}
    (hm : ∀ d start rest, m :: ms ≠ .group d :: .call .lookup start :: rest)
    (h : Owned (m :: ms) gs) : Owned ms gs := by
  cases h with
  | skip _ h => exact h
  | base _ => exact (hm _ _ _ rfl).elim
  | vacant _ _ => exact (hm _ _ _ rfl).elim

theorem uncons {m : Marker} {ms : List Marker} {gs : List Nat} (h : Owned (m :: ms) gs)
    (hm : ∀ d, m ≠ .group d) : Owned ms gs :=
  h.of_cons fun d _ _ heq => hm d (List.cons.inj heq).1

theorem of_append {front ms : List Marker} {gs : List Nat} (hfront : ∀ m ∈ front, ∀ d, m ≠ .group d)
    (h : Owned (front ++ ms) gs) : Owned ms gs := by
  induction front with
  | nil => exact h
  | cons m front ih =>
    refine ih (fun m' hm' => hfront m' (List.mem_cons_of_mem _ hm')) ?_
    exact h.uncons (hfront m List.mem_cons_self)

theorem of_operators {ops : List Operator} {ms : List Marker} {gs : List Nat}
    (h : Owned (ops.map .operator ++ ms) gs) : Owned ms gs := by
  refine of_append (fun m hm d => ?_) h
  obtain ⟨op, -, rfl⟩ := List.mem_map.mp hm
  exact fun heq => nomatch heq

theorem of_commas {k : Nat} {ms : List Marker} {gs : List Nat}
    (h : Owned (List.replicate k .comma ++ ms) gs) : Owned ms gs := by
  refine of_append (fun m hm d => ?_) h
  rw [List.eq_of_mem_replicate hm]
  exact fun heq => nomatch heq

theorem group {d : Nat} {ms : List Marker} {gs : List Nat} (hlt : ∀ g ∈ gs, g < d)
    (h : Owned ms gs) : Owned (.group d :: ms) gs := by
  by_cases hlookup : ∃ start rest, ms = .call .lookup start :: rest
  · obtain ⟨start, rest, rfl⟩ := hlookup
    exact .vacant hlt (h.uncons fun _ heq => nomatch heq)
  · refine .skip (fun _ start rest heq => hlookup ⟨start, rest, ?_⟩) h
    exact (List.cons.inj heq).2

end Owned

/-- What holds of a builder after the token `previous`. -/
structure Tiled (previous : Option Token) (b : Builder) (ps : List Piece) : Prop where
  output : b.output = .ofPieces ps
  owned : Owned b.markers (matrices ps)
  opened : previous.any Token.isOpenParen = true → ∃ ms, b.markers = .group ps.length :: ms

namespace Tiled

variable {σ : Type} [Resolver σ] {previous next : Option Token} {b b' : Builder} {s s' : σ}

theorem start : Tiled none {} [] := ⟨rfl, .nil, fun h => nomatch h⟩

theorem settle_eq_ok {level position : Nat} {ps : List Piece} {ms : List Marker} {out : Output}
    (h : Tiled previous b ps) (hsettle : settle level position b.markers b.output = .ok (ms, out)) :
    ∃ qs, out = .ofPieces qs ∧ Owned ms (matrices qs) := by
  rw [h.output] at hsettle
  obtain ⟨ops, qs, hmarkers, rfl, hfolds, -⟩ := Expression.settle_eq_ok hsettle
  have howned := h.owned
  rw [hmarkers, ← hfolds.matrices_eq] at howned
  exact ⟨qs, rfl, howned.of_operators⟩

theorem lookup {d start : Nat} {ms : List Marker} {taken rest : List Piece}
    (howned : Owned (.group d :: .call .lookup start :: ms) (matrices (taken ++ rest)))
    (hlen : taken.length = Opcode.lookup.operands)
    (hcount : (taken ++ rest).length - d = Opcode.lookup.operands)
    (haccepts : accepts .lookup taken = true) :
    ∃ v t, taken = [.tree t, .matrix v] ∧ Owned ms (matrices rest) := by
  obtain ⟨subscript, base, rfl⟩ : ∃ subscript base, taken = [subscript, base] :=
    List.length_eq_two.mp hlen
  -- the operands above the parenthesis are the two that are taken
  have hdepth : rest.length = d := by
    rw [List.length_append, hlen] at hcount
    have htwo : Opcode.lookup.operands = 2 := rfl
    omega
  cases base with
  | tree t => cases haccepts
  | matrix v =>
    cases subscript with
    | tree t =>
      refine ⟨v, t, rfl, ?_⟩
      have hmatrices : matrices ([.tree t, .matrix v] ++ rest) = d :: matrices rest :=
        congrArg (· :: matrices rest) hdepth
      rw [hmatrices] at howned
      cases howned with
      | skip hm _ => exact (hm _ _ _ rfl).elim
      | base h => exact h
      | vacant hlt _ => exact (Nat.lt_irrefl d (hlt d List.mem_cons_self)).elim
    | matrix w =>
      have hmatrices : matrices ([.matrix w, .matrix v] ++ rest) =
          (d + 1) :: d :: matrices rest := by
        simp only [List.cons_append, List.nil_append, matrices, List.length_cons, hdepth]
      rw [hmatrices] at howned
      cases howned with
      | skip hm _ => exact (hm _ _ _ rfl).elim
      | vacant hlt _ => exact (Nat.lt_irrefl d (hlt d (.tail _ (.head _)))).elim

theorem apply {d start position : Nat} {op : Opcode} {ms : List Marker} {qs : List Piece}
    {out : Output} (howned : Owned (.group d :: .call op start :: ms) (matrices qs))
    (hcount : (Output.ofPieces qs).operands.length - d = op.operands)
    (hemit : (Output.ofPieces qs).emit op position = .ok out) :
    ∃ qs', out = .ofPieces qs' ∧ Owned ms (matrices qs') := by
  obtain ⟨taken, rest, rfl, hlen, haccepts, rfl⟩ := emit_eq_ok hemit
  rw [operands_ofPieces, length_starts] at hcount
  by_cases hop : op = .lookup
  · subst hop
    obtain ⟨v, t, rfl, hrest⟩ := lookup howned hlen hcount haccepts
    exact ⟨.tree (.lookup v t) :: rest, consume_eq rest rfl, hrest⟩
  · obtain ⟨ts, t, htaken, hslots⟩ := exists_tree_of_accepts hop hlen haccepts
    refine ⟨.tree t :: rest, consume_eq rest hslots, ?_⟩
    have hcall : Owned (.call op start :: ms) (matrices (taken ++ rest)) := by
      refine howned.of_cons fun d start rest heq => hop ?_
      cases heq
      rfl
    rw [htaken, matrices_map_tree_append] at hcall
    exact hcall.uncons fun _ heq => nomatch heq

theorem move {position : Nat} {t : Token} {ps : List Piece} (h : Tiled previous b ps)
    (hmove : Move previous next position t b s b' s') : ∃ ps', Tiled (some t) b' ps' := by
  have houtput := h.output
  cases hmove with
  | number x =>
    refine ⟨.tree (.literal x) :: ps, ?_, h.owned, fun h => nomatch h⟩
    rw [Builder.operand, houtput, push_literal]
  | call _ _ hname _ =>
    exact ⟨ps, houtput, h.owned.cons fun _ heq => (nomatch heq), fun h => nomatch h⟩
  | @matrix name i _ _ _ _ _ hbase _ =>
    obtain ⟨hprevious, hawaits⟩ := Bool.and_eq_true_iff.mp hbase
    obtain ⟨ms, hmarkers⟩ := h.opened hprevious
    have howned := h.owned
    rw [Builder.awaitsMatrix, hmarkers] at hawaits
    split at hawaits
    · rename_i m start rest heq
      obtain ⟨rfl, rfl⟩ := List.cons.inj heq
      refine ⟨.matrix ⟨name, i⟩ :: ps, ?_, ?_, fun h => nomatch h⟩
      · rw [Builder.operand, houtput, push_matrix ps ⟨name, i⟩]
      · rw [hmarkers] at howned
        rw [Builder.operand, hmarkers]
        generalize hgs : matrices ps = gs at howned
        cases howned with
        | skip hm _ => exact (hm _ _ _ rfl).elim
        | base _ =>
          have hmem : ps.length ∈ matrices ps := hgs ▸ List.mem_cons_self
          exact (Nat.lt_irrefl _ (matrices_lt hmem)).elim
        | vacant _ howned => exact .base (hgs ▸ howned)
    · cases hawaits
  | @load name i _ _ _ _ _ _ _ =>
    refine ⟨.tree (.load ⟨name, i⟩) :: ps, ?_, h.owned, fun h => nomatch h⟩
    rw [Builder.operand, houtput, push_load ps ⟨name, i⟩]
  | «open» =>
    have hlen : b.output.operands.length = ps.length := by
      rw [houtput, operands_ofPieces, length_starts]
    refine ⟨ps, houtput, ?_, fun _ => ⟨_, congrArg (Marker.group · :: b.markers) hlen⟩⟩
    exact h.owned.group fun g hg => hlen ▸ matrices_lt hg
  | comma _ hsettle hopen =>
    obtain ⟨qs, rfl, howned⟩ := h.settle_eq_ok hsettle
    exact ⟨qs, rfl, howned.cons fun _ heq => (nomatch heq), fun h => nomatch h⟩
  | group _ hsettle hcall _ =>
    obtain ⟨qs, rfl, howned⟩ := h.settle_eq_ok hsettle
    refine ⟨qs, rfl, howned.of_cons fun _ start rest heq => ?_, fun h => nomatch h⟩
    exact hcall .lookup start rest (List.cons.inj heq).2
  | apply _ hsettle _ hcount hemit =>
    obtain ⟨qs, rfl, howned⟩ := h.settle_eq_ok hsettle
    obtain ⟨qs', rfl, howned⟩ := Tiled.apply howned.of_commas hcount hemit
    exact ⟨qs', rfl, howned, fun h => nomatch h⟩
  | operator _ hsettle =>
    obtain ⟨qs, rfl, howned⟩ := h.settle_eq_ok hsettle
    exact ⟨qs, rfl, howned.cons fun _ heq => (nomatch heq), fun h => nomatch h⟩

theorem moves {ls : List Lexeme} {ps : List Piece} (h : Tiled previous b ps)
    (hmoves : Moves next previous ls b s b' s') : ∃ last ps', Tiled last b' ps' := by
  induction hmoves generalizing ps with
  | nil previous _ _ => exact ⟨previous, ps, h⟩
  | cons hmove _ ih =>
    obtain ⟨ps', h'⟩ := h.move hmove
    exact ih h'

theorem finish_eq_ok {position : Nat} {ps : List Piece} {p : Program} (h : Tiled previous b ps)
    (hfinish : Builder.finish position b.markers b.output = .ok p) :
    ∃ t : Tree Variable, p = t.program := by
  rw [h.output] at hfinish
  obtain ⟨ops, q, hmarkers, hfolds, rfl⟩ := finish_ofPieces_eq_ok hfinish
  have howned := h.owned
  rw [hmarkers, ← hfolds.matrices_eq, ← List.append_nil (ops.map _)] at howned
  have hnil := howned.of_operators
  cases q with
  | tree t => exact ⟨t, rfl⟩
  | matrix v => cases hnil

end Tiled

section Compile

variable {σ : Type} [Resolver σ] {s s' : σ}

theorem run_eq_tree {stop : Nat} {ls : List Lexeme} {p : Program}
    (h : run stop none ls {} s = (.ok p, s')) : ∃ t : Tree Variable, p = t.program := by
  obtain ⟨b, hmoves, hfinish⟩ := run_eq_ok h
  obtain ⟨last, ps, htiled⟩ := Tiled.start.moves hmoves
  exact htiled.finish_eq_ok hfinish

theorem compileValue_eq_ok {cs : List Char} {p : Program} (h : compileValue cs s = (.ok p, s')) :
    ∃ lexed, valueLexemes cs = .ok lexed ∧ run lexed.stop none lexed.lexemes {} s = (.ok p, s') :=
  compileValue_eq_ok_iff.mp h

/-- The value of a text: what stands behind the `=` of an assignment, or else all of it. -/
def valueOf (text : String) : List Char :=
  match splitAssignment none text.toList with
  | none => text.toList
  | some (_, value) => value

theorem compile_eq_ok {text : String} {c : Compiled} (h : compile text s = (.ok c, s')) :
    ∃ s₁, compileValue (valueOf text) s = (.ok c.program, s₁) := by
  rw [valueOf]
  cases hsplit : splitAssignment none text.toList with
  | none =>
    obtain ⟨hvalue, -⟩ := (compile_eq_ok_iff_of_not_split hsplit).mp h
    exact ⟨s', hvalue⟩
  | some parts =>
    obtain ⟨s₁, -, hvalue, -⟩ := (compile_eq_ok_iff_of_split hsplit).mp h
    exact ⟨s₁, hvalue⟩

theorem compile_target {text : String} {c : Compiled} {i : Nat} (h : compile text s = (.ok c, s'))
    (hi : c.target = some i) : ∃ name s₁, Resolver.resolveAssign name s₁ = (some i, s') := by
  cases hsplit : splitAssignment none text.toList with
  | none =>
    obtain ⟨-, htarget⟩ := (compile_eq_ok_iff_of_not_split hsplit).mp h
    cases htarget.symm.trans hi
  | some parts =>
    obtain ⟨s₁, j, -, -, hassign, htarget⟩ := (compile_eq_ok_iff_of_split hsplit).mp h
    cases htarget.symm.trans hi
    exact ⟨_, s₁, hassign⟩

/-- Whatever compiles is the post-order of a tree. -/
theorem compile_eq_tree {text : String} {c : Compiled} (h : compile text s = (.ok c, s')) :
    ∃ t : Tree Variable, c.program = t.program := by
  obtain ⟨s₁, hvalue⟩ := compile_eq_ok h
  obtain ⟨lexed, -, hrun⟩ := compileValue_eq_ok hvalue
  exact run_eq_tree hrun

end Compile

end ChoiceModel.Expression
