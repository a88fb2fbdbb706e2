import ChoiceModel.Proofs.Expression.Coverage
import ChoiceModel.Proofs.Expression.Markers
import ChoiceModel.Proofs.Expression.Partners

/-! What is pending while a text compiles. The operands tile the program, the markers above the innermost
parenthesis are commas and operators, and a matrix group alone is the first operand of a lookup that is
still open. Where parentheses balance, a builder never comes upon one that does not. -/

namespace ChoiceModel.Expression

open Text Store Output

/-- The places where fragments begin that follow one another. -/
def Fragment.firsts : List Fragment → Nat → List Nat
  | [], _ => []
  | f :: fs, first => first :: firsts fs (first + (f first).length)

/-- What is pending between two tokens. Operands and markers stand with the last one in front. -/
structure Pending (previous next : Option Token) (b : Builder) : Prop where
  increasing : b.output.operands.reverse.Pairwise (· < ·)
  first : ∀ start, b.output.operands.reverse.head? = some start → start = 0
  tiled : ∃ pieces : List Piece,
    b.output.program.slots.toList = Fragment.join (pieces.map Piece.slots) 0 ∧
      b.output.operands.reverse = Fragment.firsts (pieces.map Piece.slots) 0
  /-- Above the innermost parenthesis there are commas and operators, and a call that waits. -/
  top : ∃ (waiting : List Marker) (ops : List Operator) (k : Nat) (below : List Marker),
    b.markers = waiting ++ (ops.map .operator ++ List.replicate k .comma ++ below) ∧
      ops.Pairwise (fun upper lower => lower.precedence < upper.precedence) ∧
      (k = 0 ∧ below = [] ∨ ∃ d rest, below = .group d :: rest) ∧
      (waiting = [] ∨ ∃ op position, waiting = [.call op position] ∧ Awaited previous next op)
  calls : ∀ above op position below, b.markers = above ++ .call op position :: below →
    (∃ front d, above = front ++ [.group d]) ∨ above = [] ∧ Awaited previous next op
  /-- An operand of one slot, up to the next operand or the end of the program. -/
  bare : ∀ later start earlier, b.output.operands = later ++ start :: earlier →
    later.getLast?.getD b.output.program.size = start + 1 → b.output.isMatrixAt start = true →
      ∃ above position below,
        b.markers = above ++ .group earlier.length :: .call .lookup position :: below

section Operands

theorem Fragment.firsts_append (fs gs : List Fragment) (first : Nat) :
    firsts (fs ++ gs) first = firsts fs first ++ firsts gs (first + (join fs first).length) := by
  induction fs generalizing first with
  | nil => rfl
  | cons f fs ih =>
    rw [List.cons_append, firsts, firsts, ih, join, List.length_append, Nat.add_assoc]
    rfl

theorem Fragment.firsts_increasing {fs : List Fragment} (hfs : ∀ f ∈ fs, f.Closed) (first : Nat) :
    (firsts fs first).Pairwise (· < ·) ∧ ∀ start ∈ firsts fs first, first ≤ start := by
  induction fs generalizing first with
  | nil => exact ⟨.nil, fun _ h => nomatch h⟩
  | cons f fs ih =>
    have hpos := (hfs f List.mem_cons_self).length_pos first
    obtain ⟨hpairwise, hle⟩ :=
      ih (fun g hg => hfs g (List.mem_cons_of_mem _ hg)) (first + (f first).length)
    refine ⟨List.pairwise_cons.mpr ⟨fun start hstart => ?_, hpairwise⟩, fun start hstart => ?_⟩
    · have hbehind := hle start hstart
      omega
    · rcases List.mem_cons.mp hstart with rfl | hstart
      · exact Nat.le_refl _
      · have hbehind := hle start hstart
        omega

variable {ps : List Piece}

theorem code_eq_join (ps : List Piece) :
    code ps = Fragment.join (ps.reverse.map Piece.slots) 0 := by
  have happend := code_append ps []
  rw [List.append_nil] at happend
  exact happend

theorem starts_reverse (ps : List Piece) :
    (starts ps).reverse = Fragment.firsts (ps.reverse.map Piece.slots) 0 := by
  induction ps with
  | nil => rfl
  | cons p ps ih =>
    rw [starts, List.reverse_cons, ih, List.reverse_cons, List.map_append, Fragment.firsts_append,
      code_eq_join, Nat.zero_add]
    rfl

/-- The operand at a place is a piece, and the ones before and behind it are the other pieces. -/
theorem exists_piece_of_starts {later earlier : List Nat} {start : Nat}
    (h : starts ps = later ++ start :: earlier) :
    ∃ above p below, ps = above ++ p :: below ∧ below.length = earlier.length ∧
      start = (code below).length ∧
      later.getLast?.getD (code ps).length = (code (p :: below)).length := by
  induction ps generalizing later with
  | nil => cases later <;> cases h
  | cons p ps ih =>
    cases later with
    | nil =>
      obtain ⟨rfl, rfl⟩ := List.cons.inj h
      exact ⟨[], p, ps, rfl, (length_starts ps).symm, rfl, rfl⟩
    | cons first later =>
      obtain ⟨rfl, htail⟩ := List.cons.inj h
      obtain ⟨above, q, below, rfl, hlength, rfl, hnext⟩ := ih htail
      refine ⟨p :: above, q, below, rfl, hlength, rfl, ?_⟩
      rw [List.getLast?_cons, Option.getD_some]
      exact hnext

end Operands

/-- The parenthesis of a lookup owns each matrix group. -/
theorem Owned.exists_group {ms : List Marker} {gs : List Nat} (h : Owned ms gs) {g : Nat}
    (hg : g ∈ gs) : ∃ above position below,
      ms = above ++ .group g :: .call .lookup position :: below := by
  induction h with
  | nil => cases hg
  | skip _ _ ih =>
    obtain ⟨above, position, below, rfl⟩ := ih hg
    exact ⟨_ :: above, position, below, rfl⟩
  | @base d start ms gs _ ih =>
    rcases List.mem_cons.mp hg with rfl | hg
    · exact ⟨[], start, ms, rfl⟩
    · obtain ⟨above, position, below, rfl⟩ := ih hg
      exact ⟨_ :: _ :: above, position, below, rfl⟩
  | vacant _ _ ih =>
    obtain ⟨above, position, below, rfl⟩ := ih hg
    exact ⟨_ :: _ :: above, position, below, rfl⟩

section Run

variable {σ : Type} [Resolver σ] {previous next : Option Token} {b b' : Builder} {s s' : σ}
  {ps : List Piece}

theorem mem_matrices {above below : List Piece} (v : Variable) :
    below.length ∈ matrices (above ++ .matrix v :: below) := by
  induction above with
  | nil => exact List.mem_cons_self
  | cons p above ih =>
    cases p with
    | tree t => exact ih
    | matrix w => exact List.mem_cons_of_mem _ ih

theorem Standing.pending (h : Standing previous next b ps) : Pending previous next b := by
  have houtput := h.tiled.output
  have hclosed : ∀ f ∈ ps.reverse.map Piece.slots, f.Closed := by
    intro f hf
    obtain ⟨p, -, rfl⟩ := List.mem_map.mp hf
    exact p.closed_slots
  have hstarts : b.output.operands.reverse = Fragment.firsts (ps.reverse.map Piece.slots) 0 := by
    rw [houtput, operands_ofPieces, starts_reverse]
  refine ⟨?_, ?_, ⟨ps.reverse, ?_, hstarts⟩, ?_, ?_, ?_⟩
  · rw [hstarts]
    exact (Fragment.firsts_increasing hclosed 0).1
  · -- the first operand is where the program starts
    intro start hstart
    rw [hstarts] at hstart
    cases hfs : ps.reverse.map Piece.slots with
    | nil =>
      rw [hfs] at hstart
      cases hstart
    | cons f fs =>
      rw [hfs] at hstart
      cases hstart
      rfl
  · rw [houtput, ← code_eq_join]
    rfl
  · obtain ⟨waiting, ms, hmarkers, harranged, hwaiting⟩ : ∃ waiting ms, b.markers = waiting ++ ms ∧
        Arranged ms ∧ (waiting = [] ∨
          ∃ op position, waiting = [.call op position] ∧ Awaited previous next op) := by
      have hshaped := h.shaped
      generalize b.markers = ms at hshaped
      cases hshaped with
      | arranged harranged => exact ⟨[], ms, rfl, harranged, .inl rfl⟩
      | called hawaited harranged => exact ⟨[_], _, rfl, harranged, .inr ⟨_, _, rfl, hawaited⟩⟩
    obtain ⟨ops, k, below, rfl, hops, hbelow⟩ := harranged.exists_top
    exact ⟨waiting, ops, k, below, hmarkers, hops, hbelow, hwaiting⟩
  · intro above op position below heq
    have hshaped := h.shaped
    generalize b.markers = ms at hshaped heq
    cases hshaped with
    | arranged harranged => exact .inl (harranged.group_above_call heq)
    | called hawaited harranged =>
      cases above with
      | nil =>
        cases heq
        exact .inr ⟨rfl, hawaited⟩
      | cons m above =>
        obtain ⟨front, d, rfl⟩ := harranged.group_above_call (List.cons.inj heq).2
        exact .inl ⟨m :: front, d, rfl⟩
  · -- a piece of one slot that is a matrix is no tree, and so a parenthesis owns it
    intro later start earlier hoperands hone hmatrix
    rw [houtput, operands_ofPieces] at hoperands
    obtain ⟨above, p, below, rfl, hlength, rfl, hnext⟩ := exists_piece_of_starts hoperands
    have hsize : b.output.program.size = (code (above ++ p :: below)).length := by
      rw [houtput]
      exact List.size_toArray
    rw [hsize, hnext] at hone
    have hbare := isMatrix_iff above below p
    rw [hone, ← houtput, hmatrix, beq_self_eq_true, Bool.and_self] at hbare
    cases p with
    | tree t => cases hbare
    | matrix v =>
      rw [← hlength]
      exact h.tiled.owned.exists_group (mem_matrices v)

/-- The lexemes that are left find the builder that the first ones have made. -/
theorem Moves.run_append {stop : Nat} {done rest : List Lexeme}
    (h : Moves (rest.head?.map Lexeme.token) previous done b s b' s') :
    run stop previous (done ++ rest) b s =
      run stop ((done.getLast?.map Lexeme.token).or previous) rest b' s' := by
  generalize hnext : rest.head?.map Lexeme.token = next at h
  induction h with
  | nil _ _ _ => rfl
  | @cons previous l ls b b₁ b₂ s s₁ s₂ hmove _ ih =>
    have hhead : (ls ++ rest).head?.map Lexeme.token = (ls.head?.map Lexeme.token).or next := by
      rw [List.head?_append, Option.map_or, hnext]
    rw [List.cons_append, run, hhead, step_eq_ok_iff.mpr hmove]
    simp only
    rw [ih, lastToken_cons]

/-! ### Parentheses that balance -/

/-- Operators alone end a text, or leave too few or too many operands. -/
theorem finish_operators_eq_error {ops : List Operator} {position : Nat} {out : Output}
    {e : SyntaxError} (h : Builder.finish position (ops.map .operator) out = .error e) :
    e = .empty ∨ ∃ fault, e = .malformed fault position := by
  induction ops generalizing out with
  | nil =>
    rw [List.map_nil, Builder.finish] at h
    split at h
    · cases h
      exact .inl rfl
    · cases h
    · cases h
      exact .inr ⟨_, rfl⟩
  | cons op ops ih =>
    rw [List.map_cons, Builder.finish] at h
    split at h
    · exact ih h
    · rename_i hemit
      cases h
      exact .inr (emit_eq_error hemit)

theorem step_unbalanced {l : Lexeme} {p : Nat}
    (h : (step previous next l b s).1 = .error (.unbalanced p)) :
    l.token = .symbol .closeParen ∧ b.close l.position = .error (.unbalanced p) := by
  unfold step at h
  split at h
  · cases h
  · unfold nameStep at h
    repeat' split at h
    all_goals cases h
  · rename_i sym hsym
    cases sym with
    | closeParen => exact ⟨hsym, h⟩
    | openParen => cases h
    | assign => cases h
    | bang => cases h
    | comma =>
      simp only [Builder.symbol, Builder.comma] at h
      split at h
      · cases h
      · cases h
      · cases h
      · rename_i hsettle
        cases h
        obtain ⟨fault, hfault⟩ := settle_eq_error hsettle
        cases hfault
    | operator op =>
      simp only [Builder.symbol, Builder.operator] at h
      split at h
      · cases h
      · rename_i hsettle
        cases h
        obtain ⟨fault, hfault⟩ := settle_eq_error hsettle
        cases hfault

namespace Standing

/-- Below the operators and commas that a `)` takes off there is a parenthesis, if one is open. -/
theorem exists_group {position : Nat} {ms : List Marker} {out : Output}
    (h : Standing previous (some (.symbol .closeParen)) b ps) (hopen : 0 < groups b.markers)
    (hsettle : settle 0 position b.markers b.output = .ok (ms, out)) :
    ∃ d rest, ms.dropWhile (· == .comma) = .group d :: rest := by
  obtain ⟨hms, hgroups, hloose⟩ :=
    h.tiled.settle_arranged (h.shaped.arranged_of_next rfl) hsettle
  obtain ⟨ops, k, below, rfl, -, hbelow⟩ := hms.exists_top
  cases ops with
  | cons op ops => exact absurd (hloose op _ rfl) (Nat.not_lt_zero _)
  | nil =>
    rcases hbelow with ⟨rfl, rfl⟩ | ⟨d, rest, rfl⟩
    · rw [← hgroups] at hopen
      exact absurd hopen (Nat.lt_irrefl 0)
    · refine ⟨d, rest, ?_⟩
      have hcommas : ∀ m ∈ List.replicate k Marker.comma, (m == .comma) = true := fun m hm =>
        beq_iff_eq.mpr (List.eq_of_mem_replicate hm)
      rw [List.map_nil, List.nil_append, List.dropWhile_append_of_pos hcommas]
      rfl

theorem close_ne_unbalanced {position : Nat} (h : Standing previous (some (.symbol .closeParen)) b ps)
    (hopen : 0 < groups b.markers) (p : Nat) : b.close position ≠ .error (.unbalanced p) := by
  intro hclose
  unfold Builder.close at hclose
  split at hclose
  · rename_i hsettle
    cases hclose
    obtain ⟨fault, hfault⟩ := settle_eq_error hsettle
    cases hfault
  · rename_i ms out hsettle
    obtain ⟨d, rest, hdrop⟩ := h.exists_group hopen hsettle
    simp only [hdrop] at hclose
    split at hclose
    · split at hclose
      · split at hclose
        · cases hclose
        · rename_i hemit
          cases hclose
          obtain ⟨fault, hfault⟩ := emit_eq_error hemit
          cases hfault
      · cases hclose
    · split at hclose
      all_goals cases hclose
    · rename_i hnone
      exact hnone d rest rfl

/-- Nothing but operators is left at the end of a text where no parenthesis is open. -/
theorem exists_operators (h : Standing previous none b ps) (hclosed : groups b.markers = 0) :
    ∃ ops : List Operator, b.markers = ops.map .operator := by
  obtain ⟨waiting, ops, k, below, hmarkers, -, hbelow, hwaiting⟩ := h.pending.top
  obtain rfl : waiting = [] := by
    refine hwaiting.resolve_right ?_
    rintro ⟨op, position, -, hnext, -⟩
    cases hnext
  rcases hbelow with ⟨rfl, rfl⟩ | ⟨d, rest, rfl⟩
  · refine ⟨ops, ?_⟩
    rw [hmarkers]
    simp
  · rw [hmarkers, List.nil_append, List.append_assoc, groups_operators, groups_commas] at hclosed
    cases hclosed

theorem run_ne_unbalanced {stop : Nat} {ls : List Lexeme}
    (h : Standing previous (ls.head?.map Lexeme.token) b ps)
    (hbalance : Marks.parentheses.depthAfter? (groups b.markers)
      (parenthesesOf (ls.map Lexeme.token)) = some 0) (p : Nat) :
    (run stop previous ls b s).1 ≠ .error (.unbalanced p) := by
  induction ls generalizing previous b s ps with
  | nil =>
    intro hrun
    rw [run] at hrun
    obtain ⟨ops, hops⟩ := h.exists_operators (Option.some.inj hbalance)
    rw [hops] at hrun
    rcases finish_operators_eq_error hrun with heq | ⟨fault, heq⟩
    · cases heq
    · cases heq
  | cons l ls ih =>
    rw [List.map_cons, parenthesesOf_cons] at hbalance
    rw [run]
    split
    · rename_i b₁ s₁ hstep
      have hmove := step_eq_ok_iff.mp hstep
      obtain ⟨qs, hnext⟩ := h.move hmove
      refine ih hnext ?_
      rw [Marks.depthAfter?_append, groups_move h.tiled h.shaped hmove] at hbalance
      exact hbalance
    · rename_i e s₁ hstep
      -- it is a `)`, and the parentheses balance only if one is open
      intro he
      cases he
      obtain ⟨htoken, hclose⟩ := step_unbalanced (congrArg Prod.fst hstep)
      rw [List.head?_cons, Option.map_some, htoken] at h
      refine h.close_ne_unbalanced (Nat.pos_of_ne_zero fun hzero => ?_) p hclose
      rw [htoken, hzero] at hbalance
      cases hbalance

end Standing

end Run

/-! ### Texts that balance -/

theorem depthAfter?_of_spelled {token : Token} {text : List Char} (h : token.Spelled text)
    (depth : Nat) : Marks.parentheses.depthAfter? depth text =
      Marks.parentheses.depthAfter? depth (parenthesesOf [token]) := by
  have hignored : ∀ {cs : List Char}, '(' ∉ cs → ')' ∉ cs →
      Marks.parentheses.depthAfter? depth cs = some depth := fun hopens hcloses =>
    (paired_iff_balance.mp (.of_not_mem hopens hcloses)).depthAfter? depth
  cases h with
  | number _ hsigns =>
    refine hignored (fun hc => ?_) fun hc => ?_
    · exact absurd (hsigns _ hc rfl) (by decide)
    · exact absurd (hsigns _ hc rfl) (by decide)
  | name hnone =>
    refine hignored (fun hc => ?_) fun hc => ?_
    · exact Bool.noConfusion (hnone _ hc)
    · exact Bool.noConfusion (hnone _ hc)
  | symbol sym =>
    cases sym with
    | operator op => cases op <;> exact hignored (by decide) (by decide)
    | assign => exact hignored (by decide) (by decide)
    | bang => exact hignored (by decide) (by decide)
    | comma => exact hignored (by decide) (by decide)
    | openParen => rfl
    | closeParen => rfl

theorem Covers.depthAfter? {position : Nat} {cs : List Char} {sources : List Source}
    (h : Covers position cs sources) (depth : Nat) : Marks.parentheses.depthAfter? depth cs =
      Marks.parentheses.depthAfter? depth
        (parenthesesOf ((sources.map Source.lexeme).map Lexeme.token)) := by
  have hblanks : ∀ {bs : List Char}, (∀ c ∈ bs, isBlank c = true) → Marks.parentheses.Balance bs :=
    fun hbs => .of_ignored fun c hc => by
      refine parentheses_ignores_of_ne ?_ ?_
      all_goals
        rintro rfl
        exact Bool.noConfusion (hbs _ hc)
  induction h generalizing depth with
  | blanks hbs => exact (hblanks hbs).depthAfter? depth
  | @source position bs text rest token sources hbs _ _ hspelled _ ih =>
    rw [List.map_cons, List.map_cons, parenthesesOf_cons, (hblanks hbs).depthAfter?_append,
      Marks.depthAfter?_append, Marks.depthAfter?_append, depthAfter?_of_spelled hspelled]
    exact congrArg _ (funext ih)

/-- The parentheses of a text that passes the check balance among its lexemes. -/
theorem balance_of_checkBalance {cs : List Char} {lexed : Scan} (hbalance : checkBalance cs = .ok ())
    (hscan : scan cs = .ok lexed) :
    Marks.parentheses.Balance (parenthesesOf (lexed.lexemes.map Lexeme.token)) := by
  obtain ⟨sources, hlexemes, hcovers⟩ := Covers.of_scans (Scans.of_scanFrom hscan)
  rw [← hlexemes, Marks.Balance, ← hcovers.depthAfter?]
  exact checkBalance_eq_ok_iff.mp hbalance

/-- After each lexeme that compiles, operands and markers lie as they should. If the parentheses balance,
as they do behind the check, no `)` comes upon anything but the `(` that it closes, and nothing but
operators is left at the end. -/
theorem pending_run {σ : Type} [Resolver σ] (s : σ) :
    (∀ (done rest : List Lexeme) (b : Builder) (s' : σ),
      Moves (rest.head?.map Lexeme.token) none done {} s b s' →
        (∀ stop, run stop none (done ++ rest) {} s =
          run stop (done.getLast?.map Lexeme.token) rest b s') ∧
        Pending (done.getLast?.map Lexeme.token) (rest.head?.map Lexeme.token) b ∧
        (Marks.parentheses.Balance (parenthesesOf ((done ++ rest).map Lexeme.token)) →
          (∀ l more, rest = l :: more → l.token = .symbol .closeParen →
            ∀ p, b.close l.position ≠ .error (.unbalanced p)) ∧
          (rest = [] → ∃ ops : List Operator, b.markers = ops.map .operator))) ∧
    (∀ (stop p : Nat) (ls : List Lexeme),
      Marks.parentheses.Balance (parenthesesOf (ls.map Lexeme.token)) →
        (run stop none ls {} s).1 ≠ .error (.unbalanced p)) ∧
    ∀ cs lexed, checkBalance cs = .ok () → scan cs = .ok lexed →
      Marks.parentheses.Balance (parenthesesOf (lexed.lexemes.map Lexeme.token)) := by
  refine ⟨fun done rest b s' hmoves => ?_, fun stop p ls hbalance => ?_,
    fun cs lexed => balance_of_checkBalance⟩
  · have hstart := Standing.start ((done.head?.map Lexeme.token).or (rest.head?.map Lexeme.token))
    obtain ⟨⟨ps, hstanding⟩, hdepth⟩ := hstart.moves hmoves
    rw [Option.or_none] at hstanding
    refine ⟨fun stop => ?_, hstanding.pending, fun hbalance => ?_⟩
    · rw [hmoves.run_append, Option.or_none]
    · have hrest : Marks.parentheses.depthAfter? (groups b.markers)
          (parenthesesOf (rest.map Lexeme.token)) = some 0 := by
        rw [Marks.Balance, List.map_append, parenthesesOf_append, Marks.depthAfter?_append] at hbalance
        have hdone : Marks.parentheses.depthAfter? 0 (parenthesesOf (done.map Lexeme.token)) =
            some (groups b.markers) := hdepth
        rw [hdone] at hbalance
        exact hbalance
      refine ⟨?_, ?_⟩
      · rintro l more rfl htoken p
        rw [List.head?_cons, Option.map_some, htoken] at hstanding
        refine hstanding.close_ne_unbalanced (Nat.pos_of_ne_zero fun hzero => ?_) p
        rw [hzero, List.map_cons, htoken] at hrest
        cases hrest
      · rintro rfl
        exact hstanding.exists_operators (Option.some.inj hrest)
  · exact (Standing.start _).run_ne_unbalanced hbalance p

end ChoiceModel.Expression
