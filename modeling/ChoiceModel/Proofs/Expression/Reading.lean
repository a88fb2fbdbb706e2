import ChoiceModel.Proofs.Expression.Sentence
import ChoiceModel.Proofs.Expression.Tiling

/-! What a builder has read. As long as operands and separators come in turn, its markers and pieces
are those of a sentence that has been read up to some place, and the text that is accepted in the end
is a sentence. Compilation does not look at the turns: it counts operands, and a count that comes out
right hides an operator whose operands stand side by side. -/

namespace ChoiceModel.Expression

open Store Output

/-- What may stand in front of an operand: nothing, or an expression with an operator, which is then
pending. -/
inductive Opens : List Operator → List Token → Prop where
  | nil : Opens [] []
  | operator {op : Operator} {ops : List Operator} {ts : List Token} : Sentence .expression ts →
    Opens (op :: ops) (ts ++ [.symbol (.operator op)])

theorem Opens.append {ops : List Operator} {cur us : List Token} (h : Opens ops cur)
    (hus : Sentence .primary us) : Sentence .expression (cur ++ us) := by
  cases h with
  | nil => exact .operand hus
  | @operator op ops ts hts =>
    rw [List.append_assoc]
    exact .operation op hts hus

/-- The markers and pieces that belong to the tokens in front of the current expression. -/
inductive Context : List Marker → List Piece → List Token → Prop where
  | start : Context [] [] []
  | group {ops : List Operator} {ms : List Marker} {qs ps : List Piece} {pre cur : List Token} :
    Context ms ps pre → Opens ops cur → qs.length = ops.length →
    Context (.group (qs ++ ps).length :: (ops.map .operator ++ ms)) (qs ++ ps)
      (pre ++ cur ++ [.symbol .openParen])
  | call {name : String} {op : Opcode} (start : Nat) {ops : List Operator} {ms : List Marker}
    {qs ps : List Piece} {pre cur : List Token} :
    Opcode.ofName? name = some op → Context ms ps pre → Opens ops cur → qs.length = ops.length →
    Context (.group (qs ++ ps).length :: .call op start :: (ops.map .operator ++ ms)) (qs ++ ps)
      (pre ++ cur ++ [.name name, .symbol .openParen])
  /-- An argument that is a matrix group is a name alone. -/
  | comma {m : Marker} {ms : List Marker} {q : Piece} {ps : List Piece} {pre arg : List Token} :
    Context (m :: ms) ps pre → Sentence .expression arg →
    (q.isMatrix = true → ∃ g, arg = [.name g] ∧ Opcode.ofName? g = none) →
    Context (.comma :: m :: ms) (q :: ps) (pre ++ arg ++ [.symbol .comma])

/-- An operand has to come next. -/
inductive Expects : List Marker → List Piece → List Token → Prop where
  | mk {ops : List Operator} {ms : List Marker} {qs ps : List Piece} {pre cur : List Token} :
    Context ms ps pre → Opens ops cur → qs.length = ops.length →
    Expects (ops.map .operator ++ ms) (qs ++ ps) (pre ++ cur)

/-- A piece that may have been read as `cur`: if it is a matrix group, it is a name alone, behind the
parenthesis of a lookup. -/
def Piece.ReadAs (q : Piece) (ms : List Marker) (cur : List Token) : Prop :=
  q.isMatrix = true → (∃ d start rest, ms = .group d :: .call .lookup start :: rest) ∧
    ∃ g, cur = [.name g] ∧ Opcode.ofName? g = none

/-- An expression has just ended, if what comes next does not continue it. -/
inductive Ended : List Marker → List Piece → List Token → Prop where
  | mk {ops : List Operator} {ms : List Marker} {q : Piece} {qs ps : List Piece}
    {pre cur : List Token} :
    Context ms ps pre → Sentence .expression cur → qs.length = ops.length → q.ReadAs ms cur →
    Ended (ops.map .operator ++ ms) (q :: (qs ++ ps)) (pre ++ cur)

theorem Opcode.ofName?_ne_operator (name : String) (op : Operator) :
    Opcode.ofName? name ≠ some (.operator op) := by
  intro h
  have hmem : Opcode.operator op ∈ Opcode.calls := List.mem_of_find?_eq_some h
  rw [Opcode.calls, List.mem_append] at hmem
  rcases hmem with hmem | hmem
  · obtain ⟨f, -, heq⟩ := List.mem_map.mp hmem
    cases heq
  · cases List.mem_singleton.mp hmem

namespace Context

variable {ms : List Marker} {ps : List Piece} {pre : List Token}

theorem isOpen (h : Context ms ps pre) {m : Marker} {rest : List Marker} (heq : ms = m :: rest) :
    m.IsOpen := by
  cases h with
  | start => cases heq
  | group _ _ _ => cases heq; trivial
  | call _ _ _ _ _ => cases heq; trivial
  | comma _ _ _ => cases heq; trivial

theorem ne_operator (h : Context ms ps pre) (op : Operator) (rest : List Marker) :
    ms ≠ .operator op :: rest :=
  fun heq => h.isOpen heq

theorem ne_call (h : Context ms ps pre) (op : Opcode) (start : Nat) (rest : List Marker) :
    ms ≠ .call op start :: rest :=
  fun heq => h.isOpen heq

theorem operators_ne_call (h : Context ms ps pre) (ops : List Operator) (op : Opcode) (start : Nat)
    (rest : List Marker) : ops.map .operator ++ ms ≠ .call op start :: rest := by
  cases ops with
  | nil => exact h.ne_call op start rest
  | cons _ _ => exact fun heq => nomatch heq

theorem operators_append_eq (h : Context ms ps pre) {ops done : List Operator} {ms' : List Marker}
    (heq : ops.map .operator ++ ms = done.map .operator ++ ms') :
    ∃ rest, ops = done ++ rest ∧ ms' = rest.map .operator ++ ms := by
  induction done generalizing ops with
  | nil => exact ⟨ops, rfl, heq.symm⟩
  | cons op done ih =>
    cases ops with
    | nil => exact (h.ne_operator op _ heq).elim
    | cons op' ops =>
      obtain ⟨hop, htail⟩ := List.cons.inj heq
      obtain ⟨rest, rfl, hms'⟩ := ih htail
      cases hop
      exact ⟨rest, rfl, hms'⟩

theorem of_group {d : Nat} (h : Context (.group d :: ms) ps pre)
    (hcall : ∀ op start rest, ms ≠ .call op start :: rest) :
    ∃ toks, Expects ms ps toks ∧ pre = toks ++ [.symbol .openParen] := by
  cases h with
  | group hcontext hopens hlen => exact ⟨_, .mk hcontext hopens hlen, rfl⟩
  | call start _ _ _ _ => exact (hcall _ start _ rfl).elim

theorem of_call {d start : Nat} {op : Opcode} (h : Context (.group d :: .call op start :: ms) ps pre) :
    ∃ name toks, Opcode.ofName? name = some op ∧ Expects ms ps toks ∧
      pre = toks ++ [.name name, .symbol .openParen] := by
  generalize hmarkers : Marker.call op start :: ms = markers at h
  cases h with
  | group hcontext _ _ => exact (hcontext.operators_ne_call _ op start ms hmarkers.symm).elim
  | @call name op' start' ops ms' qs ps' pre' cur hname hcontext hopens hlen =>
    cases hmarkers
    exact ⟨name, _, hname, .mk hcontext hopens hlen, rfl⟩

theorem of_comma (h : Context (.comma :: ms) ps pre) :
    ∃ q rest pre' arg, ps = q :: rest ∧ Context ms rest pre' ∧ Sentence .expression arg ∧
      (q.isMatrix = true → ∃ g, arg = [.name g] ∧ Opcode.ofName? g = none) ∧
      pre = pre' ++ arg ++ [.symbol .comma] := by
  cases h with
  | comma hcontext harg hbare => exact ⟨_, _, _, _, rfl, hcontext, harg, hbare, rfl⟩

theorem expects (h : Context ms ps pre) : Expects ms ps pre := by
  have hexpects := Expects.mk h .nil (rfl : ([] : List Piece).length = _)
  rw [List.append_nil] at hexpects
  exact hexpects

theorem arguments {k d start : Nat} {op : Opcode} {cur : List Token}
    (h : Context (List.replicate k .comma ++ .group d :: .call op start :: ms) ps pre)
    (hcur : Sentence .expression cur) :
    ∃ name toks args bases rest, Opcode.ofName? name = some op ∧ Expects ms rest toks ∧
      Sentence (.arguments (k + 1)) args ∧ ps = bases ++ rest ∧ bases.length = k ∧
      pre ++ cur = toks ++ .name name :: .symbol .openParen :: args := by
  induction k generalizing ps pre cur with
  | zero =>
    obtain ⟨name, toks, hname, hexpects, rfl⟩ := h.of_call
    refine ⟨name, toks, cur, [], ps, hname, hexpects, .argument hcur, rfl, rfl, ?_⟩
    rw [List.append_assoc]
    rfl
  | succ k ih =>
    obtain ⟨q, ps', pre', arg, rfl, hcontext, harg, -, rfl⟩ := of_comma h
    obtain ⟨name, toks, args, bases, rest, hname, hexpects, hargs, rfl, hlen, heq⟩ := ih hcontext harg
    refine ⟨name, toks, args ++ .symbol .comma :: cur, q :: bases, rest, hname, hexpects,
      .arguments hargs hcur, rfl, congrArg Nat.succ hlen, ?_⟩
    rw [heq]
    simp only [List.append_assoc, List.cons_append, List.nil_append]

end Context

namespace Expects

variable {ms : List Marker} {ps : List Piece} {toks : List Token}

theorem ended (h : Expects ms ps toks) {us : List Token} (hus : Sentence .primary us)
    (t : Tree Variable) : Ended ms (.tree t :: ps) (toks ++ us) := by
  cases h with
  | mk hcontext hopens hlen =>
    rw [List.append_assoc]
    exact .mk hcontext (hopens.append hus) hlen fun heq => nomatch heq

theorem context (h : Expects ms ps toks) :
    Context (.group ps.length :: ms) ps (toks ++ [.symbol .openParen]) := by
  cases h with
  | mk hcontext hopens hlen => exact .group hcontext hopens hlen

theorem contextCall (h : Expects ms ps toks) {name : String} {op : Opcode}
    (hname : Opcode.ofName? name = some op) (start : Nat) :
    Context (.group ps.length :: .call op start :: ms) ps
      (toks ++ [.name name, .symbol .openParen]) := by
  cases h with
  | mk hcontext hopens hlen => exact .call start hname hcontext hopens hlen

/-- A lookup that waits for its group has read nothing but its parenthesis. -/
theorem matrix {m : Marker} {start : Nat} (h : Expects (m :: .call .lookup start :: ms) ps toks)
    {name : String} (hname : Opcode.ofName? name = none) (i : Nat) :
    Ended (m :: .call .lookup start :: ms) (.matrix ⟨name, i⟩ :: ps) (toks ++ [.name name]) := by
  generalize hmarkers : m :: .call .lookup start :: ms = markers at h ⊢
  cases h with
  | @mk ops ms' qs ps' pre cur hcontext hopens hlen =>
    -- the parenthesis of the lookup is on top, so no operator is pending and no comma was read
    cases hopens with
    | operator _ =>
      obtain ⟨-, htail⟩ := List.cons.inj hmarkers
      exact (hcontext.operators_ne_call _ _ _ _ htail.symm).elim
    | nil =>
      rw [List.map_nil, List.nil_append] at hmarkers
      rw [List.append_assoc]
      refine .mk hcontext (.operand (.name hname)) hlen fun _ => ⟨?_, name, rfl, hname⟩
      cases hcontext with
      | start => cases hmarkers
      | group hcontext _ _ =>
        obtain ⟨-, htail⟩ := List.cons.inj hmarkers
        exact (hcontext.operators_ne_call _ _ _ _ htail.symm).elim
      | call _ _ _ _ _ =>
        cases hmarkers
        exact ⟨_, _, _, rfl⟩
      | comma hcontext _ _ =>
        obtain ⟨-, htail⟩ := List.cons.inj hmarkers
        exact (hcontext.ne_call _ _ _ htail.symm).elim

end Expects

theorem Folds.append_eq {done rest : List Operator} {q : Piece} {qs ps out : List Piece}
    (h : Folds done (q :: (qs ++ ps)) out) (hlen : qs.length = (done ++ rest).length) :
    ∃ q' qs', out = q' :: (qs' ++ ps) ∧ qs'.length = rest.length ∧ (q'.isMatrix = true → q' = q) := by
  induction done generalizing q qs with
  | nil =>
    cases h
    exact ⟨q, qs, rfl, hlen, fun _ => rfl⟩
  | cons op done ih =>
    cases qs with
    | nil => cases hlen
    | cons p qs =>
      cases h with
      | cons hfolds =>
        obtain ⟨q', qs', rfl, hlen', hmatrix⟩ := ih hfolds (Nat.succ.inj hlen)
        refine ⟨q', qs', rfl, hlen', fun h => ?_⟩
        rw [hmatrix h] at h
        cases h

namespace Ended

variable {markers : List Marker} {ps : List Piece} {toks : List Token}

theorem settle {level position : Nat} {ms : List Marker} {out : Output} (h : Ended markers ps toks)
    (hsettle : Expression.settle level position markers (.ofPieces ps) = .ok (ms, out)) :
    ∃ qs, out = .ofPieces qs ∧ Ended ms qs toks := by
  cases h with
  | mk hcontext hcur hlen hread =>
    obtain ⟨done, out, hmarkers, rfl, hfolds, -⟩ := settle_eq_ok hsettle
    obtain ⟨rest, rfl, rfl⟩ := hcontext.operators_append_eq hmarkers
    obtain ⟨q', qs', rfl, hlen', hmatrix⟩ := hfolds.append_eq hlen
    refine ⟨_, rfl, .mk hcontext hcur hlen' fun h => hread ?_⟩
    rw [← hmatrix h]
    exact h

/-- Where no operator is pending, the pieces are those of the context and the one just read. -/
theorem context (h : Ended markers ps toks) (htop : ∀ op rest, markers ≠ .operator op :: rest) :
    ∃ q rest pre cur, ps = q :: rest ∧ toks = pre ++ cur ∧ Context markers rest pre ∧
      Sentence .expression cur ∧ q.ReadAs markers cur := by
  cases h with
  | @mk ops ms q qs ps pre cur hcontext hcur hlen hread =>
    cases ops with
    | nil =>
      cases List.length_eq_zero_iff.mp hlen
      exact ⟨q, ps, pre, cur, rfl, rfl, hcontext, hcur, hread⟩
    | cons op ops => exact (htop op _ rfl).elim

theorem operator (h : Ended markers ps toks) (op : Operator) :
    Expects (.operator op :: markers) ps (toks ++ [.symbol (.operator op)]) := by
  cases h with
  | @mk ops ms q qs ps pre cur hcontext hcur hlen _ =>
    have hopens : Opens (op :: ops) (cur ++ [.symbol (.operator op)]) := .operator hcur
    have hlen' : (q :: qs).length = (op :: ops).length := congrArg Nat.succ hlen
    rw [List.append_assoc]
    exact .mk hcontext hopens hlen'

theorem comma {m : Marker} {ms : List Marker} (h : Ended (m :: ms) ps toks) (hopen : m.IsOpen) :
    Expects (.comma :: m :: ms) ps (toks ++ [.symbol .comma]) := by
  have htop : ∀ op rest, m :: ms ≠ .operator op :: rest := by
    rintro op rest heq
    cases heq
    exact hopen
  obtain ⟨q, rest, pre, cur, rfl, rfl, hcontext, hcur, hread⟩ := h.context htop
  have hcomma : Context (.comma :: m :: ms) (q :: rest) (pre ++ cur ++ [.symbol .comma]) :=
    .comma hcontext hcur fun hq => (hread hq).2
  exact hcomma.expects

theorem group {d : Nat} {ms : List Marker} (h : Ended (.group d :: ms) ps toks)
    (hcall : ∀ op start rest, ms ≠ .call op start :: rest) :
    Ended ms ps (toks ++ [.symbol .closeParen]) := by
  obtain ⟨q, rest, pre, cur, rfl, rfl, hcontext, hcur, hread⟩ := h.context fun _ _ => nofun
  obtain ⟨toks, hexpects, rfl⟩ := hcontext.of_group hcall
  cases q with
  | tree t =>
    have hended := hexpects.ended (.group hcur) t
    simp only [List.append_assoc, List.singleton_append] at hended ⊢
    exact hended
  | matrix v =>
    obtain ⟨⟨d, start, rest, heq⟩, -⟩ := hread rfl
    exact (hcall _ start rest (List.cons.inj heq).2).elim

theorem arguments {k d start : Nat} {op : Opcode} {ms : List Marker}
    (h : Ended (List.replicate k .comma ++ .group d :: .call op start :: ms) ps toks) :
    ∃ name before args taken rest, Opcode.ofName? name = some op ∧ Expects ms rest before ∧
      Sentence (.arguments (k + 1)) args ∧ ps = taken ++ rest ∧ taken.length = k + 1 ∧
      toks = before ++ .name name :: .symbol .openParen :: args := by
  have htop : ∀ op' rest, List.replicate k .comma ++ .group d :: .call op start :: ms ≠
      .operator op' :: rest := by
    cases k with
    | zero => exact fun _ _ => nofun
    | succ k => exact fun _ _ => nofun
  obtain ⟨q, others, pre, cur, rfl, rfl, hcontext, hcur, -⟩ := h.context htop
  obtain ⟨name, before, args, bases, rest, hname, hexpects, hargs, rfl, hbases, heq⟩ :=
    hcontext.arguments hcur
  exact ⟨name, before, args, q :: bases, rest, hname, hexpects, hargs, rfl,
    congrArg Nat.succ hbases, heq⟩

theorem function {k d start : Nat} {f : Builtin} {ms : List Marker} {taken kept : List Piece}
    (h : Ended (List.replicate k .comma ++ .group d :: .call (.function f) start :: ms)
      (taken ++ kept) toks)
    (hcommas : k + 1 = (Opcode.function f).operands)
    (hlen : taken.length = (Opcode.function f).operands) (t : Tree Variable) :
    Ended ms (.tree t :: kept) (toks ++ [.symbol .closeParen]) := by
  obtain ⟨name, before, args, taken', rest, hname, hexpects, hargs, hpieces, htaken, rfl⟩ :=
    h.arguments
  obtain ⟨-, rfl⟩ := List.append_inj hpieces (hlen.trans (htaken.trans hcommas).symm)
  rw [hcommas] at hargs
  have hended := hexpects.ended (.call hname hargs) t
  simp only [List.append_assoc, List.cons_append] at hended ⊢
  exact hended

/-- A lookup closes on the name of its group and a subscript that is no group. -/
theorem lookup {d start : Nat} {ms : List Marker} {taken kept : List Piece}
    (h : Ended (.comma :: .group d :: .call .lookup start :: ms) (taken ++ kept) toks)
    (hlen : taken.length = Opcode.lookup.operands) (haccepts : accepts .lookup taken = true) :
    ∃ v t, taken = [.tree t, .matrix v] ∧
      Ended ms (.tree (.lookup v t) :: kept) (toks ++ [.symbol .closeParen]) := by
  -- the markers give two arguments of the text, which are the two pieces taken
  obtain ⟨q, others, pre, cur, hpieces, rfl, hcomma, hcur, hread⟩ := h.context fun _ _ => nofun
  obtain ⟨base, rest, pre', arg, rfl, hcall, -, hbare, rfl⟩ := hcomma.of_comma
  obtain ⟨name, toks, hname, hexpects, rfl⟩ := hcall.of_call
  have hsplit : taken.length = [q, base].length := hlen
  obtain ⟨rfl, rfl⟩ := List.append_inj hpieces hsplit
  obtain ⟨group, rfl, hgroup⟩ := hbare haccepts
  cases base with
  | tree t => cases haccepts
  | matrix v =>
    cases q with
    | matrix w =>
      -- a group behind a comma is not behind the parenthesis of a lookup
      obtain ⟨⟨_, _, _, heq⟩, -⟩ := hread rfl
      cases heq
    | tree t =>
      refine ⟨v, t, rfl, ?_⟩
      have hended := hexpects.ended (.lookup hname hgroup hcur) (.lookup v t)
      simp only [List.append_assoc, List.cons_append, List.nil_append] at hended ⊢
      exact hended

theorem apply {k d start position : Nat} {op : Opcode} {ms : List Marker} {out : Output}
    (h : Ended (List.replicate k .comma ++ .group d :: .call op start :: ms) ps toks)
    (hcommas : k + 1 = op.operands) (hemit : (Output.ofPieces ps).emit op position = .ok out) :
    ∃ qs, out = .ofPieces qs ∧ Ended ms qs (toks ++ [.symbol .closeParen]) := by
  obtain ⟨taken, kept, rfl, hlen, haccepts, rfl⟩ := emit_eq_ok hemit
  cases op with
  | operator op =>
    obtain ⟨name, -, -, -, -, hname, -⟩ := h.arguments
    exact (Opcode.ofName?_ne_operator name op hname).elim
  | function f =>
    obtain ⟨ts, t, -, hslots⟩ := exists_tree_of_accepts Opcode.noConfusion hlen haccepts
    exact ⟨.tree t :: kept, consume_eq kept hslots, h.function hcommas hlen t⟩
  | lookup =>
    obtain rfl : k = 1 := Nat.succ.inj hcommas
    obtain ⟨v, t, rfl, hended⟩ := lookup h hlen haccepts
    exact ⟨.tree (.lookup v t) :: kept, consume_eq kept rfl, hended⟩

theorem finish {position : Nat} {p : Program} (h : Ended markers ps toks)
    (hfinish : Builder.finish position markers (.ofPieces ps) = .ok p) :
    Sentence .expression toks := by
  cases h with
  | mk hcontext hcur _ _ =>
    obtain ⟨done, q, hmarkers, -, -⟩ := finish_ofPieces_eq_ok hfinish
    -- only operators are left, so the context is empty
    rw [← List.append_nil (done.map _)] at hmarkers
    obtain ⟨rest, -, hnil⟩ := hcontext.operators_append_eq hmarkers
    obtain ⟨-, rfl⟩ := List.append_eq_nil_iff.mp hnil.symm
    cases hcontext
    exact hcur

end Ended

section Run

variable {σ : Type} [Resolver σ]

/-- What a builder has read when the tokens `rest` are still to come; the flag tells whether an
operand has just ended. -/
inductive Reads (rest : List Token) : Bool → Builder → List Token → Prop where
  | expects {ms : List Marker} {ps : List Piece} {toks : List Token} : Expects ms ps toks →
    Reads rest false ⟨ms, .ofPieces ps⟩ toks
  /-- The name of a call, whose parenthesis comes next. -/
  | called {ms : List Marker} {ps : List Piece} {toks : List Token} {name : String} {op : Opcode}
    (start : Nat) : Expects ms ps toks → Opcode.ofName? name = some op → opensCall rest = true →
    Reads rest false ⟨.call op start :: ms, .ofPieces ps⟩ (toks ++ [.name name])
  | ended {ms : List Marker} {ps : List Piece} {toks : List Token} : Ended ms ps toks →
    Reads rest true ⟨ms, .ofPieces ps⟩ toks

namespace Reads

variable {previous : Option Token} {rest toks : List Token} {position : Nat} {b b' : Builder}
  {s s' : σ}

theorem move_called {ms : List Marker} {ps : List Piece} {name : String} {op : Opcode}
    {start : Nat} {t : Token} (hexpects : Expects ms ps toks) (hname : Opcode.ofName? name = some op)
    (hopen : opensCall (t :: rest) = true)
    (hmove : Move previous rest.head? position t ⟨.call op start :: ms, .ofPieces ps⟩ s b' s') :
    t = .symbol .openParen ∧ Reads rest false b' (toks ++ [.name name] ++ [t]) := by
  cases hmove with
  | «open» =>
    have hcontext := (hexpects.contextCall hname start).expects
    rw [← length_starts ps] at hcontext
    rw [List.append_assoc]
    exact ⟨rfl, .expects hcontext⟩
  | number _ => cases hopen
  | call _ _ _ _ => cases hopen
  | matrix _ _ _ _ => cases hopen
  | load _ _ _ _ => cases hopen
  | comma _ _ _ => cases hopen
  | group _ _ _ _ => cases hopen
  | apply _ _ _ _ _ => cases hopen
  | operator _ _ => cases hopen

/-- Where an operand has to come next, a token begins or is one. -/
theorem move_expects {ms : List Marker} {ps : List Piece} {t : Token} (hexpects : Expects ms ps toks)
    (hturn : Alternates false (t :: rest))
    (hmove : Move previous rest.head? position t ⟨ms, .ofPieces ps⟩ s b' s') :
    ∃ ended, Reads rest ended b' (toks ++ [t]) ∧ Alternates ended rest := by
  cases hmove with
  | number x =>
    refine ⟨true, ?_, hturn⟩
    show Reads rest true ⟨ms, (Output.ofPieces ps).push (.literal x) none⟩ _
    rw [push_literal]
    exact .ended (hexpects.ended (.number x) (.literal x))
  | call _ _ hname hnext =>
    have hcall : opensCall rest = true := hnext
    rw [Alternates, hcall] at hturn
    exact ⟨false, .called position hexpects hname hcall, hturn⟩
  | @matrix name i _ _ _ hname hnext hbase _ =>
    have hcall : opensCall rest = false := hnext
    rw [Alternates, hcall] at hturn
    refine ⟨true, ?_, hturn⟩
    show Reads rest true ⟨ms, (Output.ofPieces ps).push (.matrix i) (some name)⟩ _
    rw [push_matrix ps ⟨name, i⟩]
    have hawaits := (Bool.and_eq_true_iff.mp hbase).2
    rw [Builder.awaitsMatrix] at hawaits
    split at hawaits
    · rename_i m start rest heq
      obtain rfl : ms = m :: .call .lookup start :: rest := heq
      exact .ended (hexpects.matrix hname i)
    · cases hawaits
  | @load name i _ _ _ hname hnext _ _ =>
    have hcall : opensCall rest = false := hnext
    rw [Alternates, hcall] at hturn
    refine ⟨true, ?_, hturn⟩
    show Reads rest true ⟨ms, (Output.ofPieces ps).push (.load i) (some name)⟩ _
    rw [push_load ps ⟨name, i⟩]
    exact .ended (hexpects.ended (.name hname) (.load ⟨name, i⟩))
  | «open» =>
    have hcontext := hexpects.context.expects
    rw [← length_starts ps] at hcontext
    exact ⟨false, .expects hcontext, hturn⟩
  | comma _ _ _ => cases hturn
  | group _ _ _ _ => cases hturn
  | apply _ _ _ _ _ => cases hturn
  | operator _ _ => cases hturn

/-- Where an operand has ended, a token separates it from the next one or closes a parenthesis. -/
theorem move_ended {ms : List Marker} {ps : List Piece} {t : Token} (hended : Ended ms ps toks)
    (hturn : Alternates true (t :: rest))
    (hmove : Move previous rest.head? position t ⟨ms, .ofPieces ps⟩ s b' s') :
    ∃ ended, Reads rest ended b' (toks ++ [t]) ∧ Alternates ended rest := by
  cases hmove with
  | number _ => cases hturn
  | call _ _ _ _ => cases hturn
  | matrix _ _ _ _ => cases hturn
  | load _ _ _ _ => cases hturn
  | «open» => cases hturn
  | comma _ hsettle hopen =>
    obtain ⟨qs, rfl, hended⟩ := hended.settle hsettle
    exact ⟨false, .expects (hended.comma hopen), hturn⟩
  | group _ hsettle hcall _ =>
    obtain ⟨qs, rfl, hended⟩ := hended.settle hsettle
    exact ⟨true, .ended (hended.group hcall), hturn⟩
  | apply _ hsettle hcommas _ hemit =>
    obtain ⟨qs, rfl, hended⟩ := hended.settle hsettle
    obtain ⟨qs', rfl, hended⟩ := hended.apply hcommas hemit
    exact ⟨true, .ended hended, hturn⟩
  | operator _ hsettle =>
    obtain ⟨qs, rfl, hended⟩ := hended.settle hsettle
    exact ⟨false, .expects (hended.operator _), hturn⟩

theorem move {ended : Bool} {t : Token} (h : Reads (t :: rest) ended b toks)
    (hturn : Alternates ended (t :: rest))
    (hmove : Move previous rest.head? position t b s b' s') :
    ∃ ended, Reads rest ended b' (toks ++ [t]) ∧ Alternates ended rest := by
  cases h with
  | expects hexpects => exact move_expects hexpects hturn hmove
  | called start hexpects hname hopen =>
    obtain ⟨rfl, hreads⟩ := move_called hexpects hname hopen hmove
    exact ⟨false, hreads, hturn⟩
  | ended hended => exact move_ended hended hturn hmove

theorem moves {ended : Bool} {ls : List Lexeme} (h : Reads (ls.map Lexeme.token) ended b toks)
    (hturn : Alternates ended (ls.map Lexeme.token)) (hmoves : Moves none previous ls b s b' s') :
    Reads [] true b' (toks ++ ls.map Lexeme.token) := by
  generalize hnext : (none : Option Token) = next at hmoves
  induction hmoves generalizing ended toks with
  | nil previous b s =>
    cases hturn
    rw [List.map_nil, List.append_nil]
    exact h
  | @cons previous l ls b b₁ b₂ s s₁ s₂ hmove _ ih =>
    subst hnext
    rw [Option.or_none, ← List.head?_map] at hmove
    rw [List.map_cons] at h hturn
    obtain ⟨ended, hreads, hturn⟩ := h.move hturn hmove
    have hlast := ih hreads hturn
    rw [List.append_assoc] at hlast
    exact hlast

theorem finish_eq_ok {p : Program} {stop : Nat} (h : Reads [] true b toks)
    (hfinish : Builder.finish stop b.markers b.output = .ok p) : Sentence .expression toks := by
  cases h with
  | ended hended => exact hended.finish hfinish

end Reads

end Run

end ChoiceModel.Expression
