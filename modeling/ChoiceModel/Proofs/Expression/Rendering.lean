import ChoiceModel.Proofs.Expression.Move
import ChoiceModel.Store.DataTable
import Mathlib

/-! The infix texts of an expression tree, and that each of them compiles to the post-order of the
tree. The markers that an operand finds open stay below it: settling its own operators afterwards
leaves the same builder as if its tree had been there at once. -/

namespace ChoiceModel.Expression

open Store

/-- The operators by how tightly they bind, the loosest first. -/
def Operator.tiers : List (List Operator) :=
  [[.eq, .ne], [.lt, .gt, .le, .ge], [.add, .sub], [.mul, .div, .mod], [.pow]]

/-- The number of the tier that an operator stands in. -/
def Operator.tier (op : Operator) : Nat := tiers.findIdx (fun ops => op ∈ ops) + 1

theorem Operator.precedence_eq_tier (op : Operator) : op.precedence = op.tier := by cases op <;> decide

/-- What stands at one place of a text: an operand whose operators outside all parentheses bind at
least as tightly as `level`, or the arguments of a call. -/
inductive Phrase where
  | operand (level : Nat) (e : Tree String)
  | arguments (es : List (Tree String))

/-- The infix texts of a phrase. Parentheses stand wherever precedence and associativity to the left
need them, and as many more as one likes. -/
inductive Phrase.Renders : Phrase → List Token → Prop where
  | literal (level : Nat) (x : Float) : Renders (.operand level (.literal x)) [.number x]
  | load (level : Nat) {name : String} : Opcode.ofName? name = none →
    Renders (.operand level (.load name)) [.name name]
  | operator {level : Nat} {op : Operator} {left right : Tree String} {ts us : List Token} :
    level ≤ op.tier → Renders (.operand op.tier left) ts →
    Renders (.operand (op.tier + 1) right) us →
    Renders (.operand level (.operator op left right)) (ts ++ .symbol (.operator op) :: us)
  | group (level : Nat) {e : Tree String} {ts : List Token} : Renders (.operand 0 e) ts →
    Renders (.operand level e) (.symbol .openParen :: (ts ++ [.symbol .closeParen]))
  | call (level : Nat) {name : String} {f : Builtin} {args : Fin f.arity.operands → Tree String}
    {ts : List Token} :
    Opcode.ofName? name = some (.function f) → Renders (.arguments (List.ofFn args)) ts →
    Renders (.operand level (.call f args))
      (.name name :: .symbol .openParen :: (ts ++ [.symbol .closeParen]))
  | lookup (level : Nat) {name group : String} {subscript : Tree String} {ts : List Token} :
    Opcode.ofName? name = some .lookup → Opcode.ofName? group = none →
    Renders (.operand 0 subscript) ts →
    Renders (.operand level (.lookup group subscript))
      (.name name :: .symbol .openParen :: .name group :: .symbol .comma ::
        (ts ++ [.symbol .closeParen]))
  | argument {e : Tree String} {ts : List Token} : Renders (.operand 0 e) ts →
    Renders (.arguments [e]) ts
  | arguments {e : Tree String} {es : List (Tree String)} {ts us : List Token} :
    Renders (.operand 0 e) ts → Renders (.arguments es) us →
    Renders (.arguments (e :: es)) (ts ++ .symbol .comma :: us)

section Resolution

variable {σ : Type} [Resolver σ]

/-- Resolves a name; one that a subscript follows is that of a matrix group. -/
def resolveOccurrence (v : String × Bool) (s : σ) : Option Nat × σ :=
  if v.2 then Resolver.resolveArray v.1 s else Resolver.resolveRead v.1 s

/-- Resolves names from left to right, as long as each of them is known. -/
def resolveAll : List (String × Bool) → σ → Option (List Nat) × σ
  | [], s => (some [], s)
  | v :: vs, s =>
    match resolveOccurrence v s with
    | (none, s) => (none, s)
    | (some i, s) =>
      match resolveAll vs s with
      | (none, s) => (none, s)
      | (some is, s) => (some (i :: is), s)

theorem resolveAll_cons {v : String × Bool} {vs : List (String × Bool)} {s s' : σ}
    {indices : List Nat} (h : resolveAll (v :: vs) s = (some indices, s')) :
    ∃ i s₁ is, resolveOccurrence v s = (some i, s₁) ∧ resolveAll vs s₁ = (some is, s') ∧
      indices = i :: is := by
  rw [resolveAll] at h
  split at h
  · cases h
  · rename_i i s₁ hfirst
    split at h
    · cases h
    · rename_i is s₂ hrest
      cases h
      exact ⟨i, s₁, is, hfirst, hrest, rfl⟩

theorem resolveAll_append {vs ws : List (String × Bool)} {s s' : σ} {indices : List Nat}
    (h : resolveAll (vs ++ ws) s = (some indices, s')) :
    ∃ is s₁ js, resolveAll vs s = (some is, s₁) ∧ resolveAll ws s₁ = (some js, s') ∧
      indices = is ++ js := by
  induction vs generalizing s indices with
  | nil => exact ⟨[], s, indices, rfl, h, rfl⟩
  | cons v vs ih =>
    obtain ⟨i, s₁, is, hfirst, hrest, rfl⟩ := resolveAll_cons h
    obtain ⟨is, s₂, js, hvs, hws, rfl⟩ := ih hrest
    refine ⟨i :: is, s₂, js, ?_, hws, rfl⟩
    simp only [resolveAll, hfirst, hvs]

end Resolution

namespace Tree

theorem indices_operator (op : Operator) (left right : Tree Variable) :
    (operator op left right).indices = left.indices ++ right.indices := by
  simp only [indices, occurrences, List.map_append]

theorem indices_lookup (group : Variable) (subscript : Tree Variable) :
    (lookup group subscript).indices = group.index :: subscript.indices := rfl

theorem indices_call (f : Builtin) (args : Fin f.arity.operands → Tree Variable) :
    (call f args).indices = (List.ofFn args).flatMap indices := by
  simp only [indices, occurrences, List.map_flatten, List.map_ofFn, List.flatMap_def]
  rfl

theorem flatMap_occurrences_ofFn {ν : Type} (f : Builtin) (args : Fin f.arity.operands → Tree ν) :
    (List.ofFn args).flatMap occurrences = (call f args).occurrences := by
  simp only [occurrences, List.flatMap_def, List.map_ofFn]
  rfl

end Tree

/-- Whether an operand at a level may begin after `previous`: the operator in front of it binds more
loosely, no call waits for its parentheses, and no lookup for its group. -/
structure Ready (level : Nat) (previous : Option Token) (markers : List Marker) : Prop where
  loose : ∀ op rest, markers = .operator op :: rest → op.precedence < level
  noCall : ∀ op start rest, markers ≠ .call op start :: rest
  noGroup : previous.any Token.isOpenParen = true →
    ∀ m start rest, markers ≠ m :: .call .lookup start :: rest

namespace Ready

variable {level : Nat} {previous : Option Token} {markers : List Marker}

theorem awaitsMatrix (h : Ready level previous markers) (out : Output) :
    (previous.any Token.isOpenParen && (Builder.mk markers out).awaitsMatrix) = false := by
  cases hprevious : previous.any Token.isOpenParen with
  | false => rfl
  | true =>
    rw [Bool.true_and, Builder.awaitsMatrix]
    split
    · rename_i m start rest heq
      exact (h.noGroup hprevious m start rest heq).elim
    · rfl

theorem settle_eq (h : Ready level previous markers) (position : Nat) (out : Output) :
    settle level position markers out = .ok (markers, out) := by
  rcases markers with _ | ⟨m, ms⟩
  · rfl
  · cases m with
    | operator op =>
      rw [settle, if_neg (Nat.not_le_of_lt (h.loose op ms rfl))]
    | group depth => rfl
    | comma => rfl
    | call op start => rfl

theorem mono {level' : Nat} (h : Ready level previous markers) (hle : level ≤ level') :
    Ready level' previous markers :=
  ⟨fun op rest heq => Nat.lt_of_lt_of_le (h.loose op rest heq) hle, h.noCall, h.noGroup⟩

theorem of_isOpen {m : Marker} {ms : List Marker} (hopen : m.IsOpen)
    (hgroup : previous.any Token.isOpenParen = true →
      ∀ start rest, ms ≠ .call .lookup start :: rest) :
    Ready level previous (m :: ms) := by
  refine ⟨fun op rest heq => ?_, fun op start rest heq => ?_, fun hprevious m' start rest heq => ?_⟩
  · cases heq
    exact hopen.elim
  · cases heq
    exact hopen.elim
  · cases heq
    exact hgroup hprevious start rest rfl

end Ready

theorem Marker.IsOpen.settle_eq {m : Marker} (h : m.IsOpen) (level position : Nat)
    (ms : List Marker) (out : Output) :
    settle level position (m :: ms) out = .ok (m :: ms, out) := by
  cases m with
  | group depth => rfl
  | comma => rfl
  | operator op => exact h.elim
  | call op start => exact h.elim

section Compiles

variable (σ : Type) [Resolver σ]

/-- What the lexemes of a phrase do to a builder that is ready for it. -/
def Phrase.Compiles (tokens : List Token) : Phrase → Prop
  | operand level e => ∀ ls : List Lexeme, ls.map Lexeme.token = tokens →
    ∀ next previous markers ps (s s' : σ) indices,
      next.any Token.isOpenParen = false → Ready level previous markers →
      resolveAll e.occurrences s = (some indices, s') →
      ∃ (r : Tree Variable) (b : Builder), r.map Variable.name = e ∧ r.indices = indices ∧
        Moves next previous ls ⟨markers, .ofPieces ps⟩ s b s' ∧
        ∀ l ≤ level, ∀ position, settle l position b.markers b.output =
          settle l position markers (.ofPieces (.tree r :: ps))
  | arguments es => ∀ ls : List Lexeme, ls.map Lexeme.token = tokens →
    ∀ next previous m markers ps (s s' : σ) indices,
      next.any Token.isOpenParen = false → m.IsOpen →
      (previous.any Token.isOpenParen = true → ∀ start rest, markers ≠ .call .lookup start :: rest) →
      resolveAll (es.flatMap Tree.occurrences) s = (some indices, s') →
      ∃ (rs : List (Tree Variable)) (b : Builder), rs.map (Tree.map Variable.name) = es ∧
        rs.flatMap Tree.indices = indices ∧ rs ≠ [] ∧
        Moves next previous ls ⟨m :: markers, .ofPieces ps⟩ s b s' ∧
        ∀ position, settle 0 position b.markers b.output =
          .ok (List.replicate (rs.length - 1) .comma ++ m :: markers,
            .ofPieces ((rs.map Piece.tree).reverse ++ ps))

variable {σ : Type} [Resolver σ]

theorem Moves.single {next previous : Option Token} {l : Lexeme} {t : Token} {b b' : Builder}
    {s s' : σ} (hl : l.token = t) (h : Move previous next l.position t b s b' s') :
    Moves next previous [l] b s b' s' := by
  rw [← hl] at h
  exact .cons h (.nil _ _ _)

theorem Moves.step {next previous : Option Token} {l : Lexeme} {ls : List Lexeme} {t : Token}
    {b b₁ b' : Builder} {s s₁ s' : σ} (hl : l.token = t)
    (h : Move previous ((ls.head?.map Lexeme.token).or next) l.position t b s b₁ s₁)
    (hrest : Moves next (some t) ls b₁ s₁ b' s') :
    Moves next previous (l :: ls) b s b' s' := by
  rw [← hl] at h hrest
  exact .cons h hrest

theorem Move.openParen {previous next : Option Token} {position : Nat} (markers : List Marker)
    (ps : List Piece) (s : σ) :
    Move previous next position (.symbol .openParen) ⟨markers, .ofPieces ps⟩ s
      ⟨.group ps.length :: markers, .ofPieces ps⟩ s := by
  have hmove : Move previous next position (.symbol .openParen) ⟨markers, .ofPieces ps⟩ s _ s :=
    .open _ s
  rw [Output.operands_ofPieces, Output.length_starts] at hmove
  exact hmove

theorem isOpenParen_head {l : Lexeme} {t : Token} (hl : l.token = t) (ls : List Lexeme)
    (next : Option Token) :
    (((l :: ls).head?.map Lexeme.token).or next).any Token.isOpenParen = t.isOpenParen := by
  rw [List.head?_cons, Option.map_some, Option.some_or, Option.any_some, hl]

theorem exists_ofFn_of_map_eq {α β : Type} {n : Nat} {g : α → β} {as : List α} {bs : Fin n → β}
    (h : as.map g = List.ofFn bs) :
    ∃ as' : Fin n → α, as = List.ofFn as' ∧ (fun i => g (as' i)) = bs := by
  obtain rfl : as.length = n := by
    rw [← List.length_map, h, List.length_ofFn]
  refine ⟨as.get, (List.ofFn_get as).symm, List.ofFn_injective ?_⟩
  rw [← h, ← Function.comp_def, ← List.map_ofFn, List.ofFn_get]

namespace Phrase

theorem compiles_literal (level : Nat) (x : Float) :
    Compiles σ [.number x] (.operand level (.literal x)) := by
  intro ls hls next previous markers ps s s' indices hnext hready hresolve
  obtain ⟨l, rfl, hl⟩ := List.map_eq_singleton_iff.mp hls
  cases hresolve
  refine ⟨.literal x, ⟨markers, .ofPieces (.tree (.literal x) :: ps)⟩, rfl, rfl, ?_,
    fun _ _ _ => rfl⟩
  have hmove : Move previous next l.position (.number x) ⟨markers, .ofPieces ps⟩ s _ s :=
    .number x _ s
  rw [Builder.operand, Output.push_literal] at hmove
  exact .single hl hmove

theorem compiles_load (level : Nat) {name : String} (hname : Opcode.ofName? name = none) :
    Compiles σ [.name name] (.operand level (.load name)) := by
  intro ls hls next previous markers ps s s' indices hnext hready hresolve
  obtain ⟨l, rfl, hl⟩ := List.map_eq_singleton_iff.mp hls
  obtain ⟨i, s₁, is, hread, hnil, rfl⟩ := resolveAll_cons hresolve
  cases hnil
  refine ⟨.load ⟨name, i⟩, ⟨markers, .ofPieces (.tree (.load ⟨name, i⟩) :: ps)⟩, rfl, rfl, ?_,
    fun _ _ _ => rfl⟩
  have hmove : Move previous next l.position (.name name) _ s _ s' :=
    .load hname hnext (hready.awaitsMatrix (.ofPieces ps)) hread
  rw [Builder.operand, Output.push_load ps ⟨name, i⟩] at hmove
  exact .single hl hmove

theorem compiles_operator {level : Nat} {op : Operator} {left right : Tree String}
    {ts us : List Token} (hlevel : level ≤ op.precedence)
    (hleft : Compiles σ ts (.operand op.precedence left))
    (hright : Compiles σ us (.operand (op.precedence + 1) right)) :
    Compiles σ (ts ++ .symbol (.operator op) :: us) (.operand level (.operator op left right)) := by
  intro ls hls next previous markers ps s s' indices hnext hready hresolve
  obtain ⟨lefts, more, rfl, hlefts, hmore⟩ := List.map_eq_append_iff.mp hls
  obtain ⟨l, rights, rfl, hl, hrights⟩ := List.map_eq_cons_iff.mp hmore
  obtain ⟨is, s₁, js, hresolveLeft, hresolveRight, rfl⟩ := resolveAll_append hresolve
  have hnextLeft := isOpenParen_head hl rights next
  have hreadyLeft := hready.mono hlevel
  obtain ⟨a, b₁, hname₁, hindices₁, hmoves₁, hsettle₁⟩ :=
    hleft lefts hlefts _ previous markers ps s s₁ is hnextLeft hreadyLeft hresolveLeft
  -- the operator settles whatever the left operand has left open, and nothing below it
  have hsettled : settle op.precedence l.position b₁.markers b₁.output =
      .ok (markers, .ofPieces (.tree a :: ps)) :=
    (hsettle₁ _ (Nat.le_refl _) _).trans (hreadyLeft.settle_eq _ _)
  have hreadyRight : Ready (op.precedence + 1) (some (.symbol (.operator op)))
      (.operator op :: markers) := by
    refine ⟨fun op' rest heq => ?_, fun _ _ _ heq => (nomatch heq), fun h => (nomatch h)⟩
    cases heq
    exact Nat.lt_succ_self _
  obtain ⟨b, b₂, hname₂, hindices₂, hmoves₂, hsettle₂⟩ :=
    hright rights hrights next _ (.operator op :: markers) (.tree a :: ps) s₁ s' js hnext
      hreadyRight hresolveRight
  refine ⟨.operator op a b, b₂, ?_, ?_, hmoves₁.append (.step hl (.operator s₁ hsettled) hmoves₂),
    fun m hm position => ?_⟩
  · rw [Tree.map, hname₁, hname₂]
  · rw [Tree.indices_operator, hindices₁, hindices₂]
  · have hle : m ≤ op.precedence := Nat.le_trans hm hlevel
    rw [hsettle₂ m (Nat.le_succ_of_le hle) position, settle, if_pos hle, Output.emit_operator]

theorem compiles_group (level : Nat) {e : Tree String} {ts : List Token}
    (hinner : Compiles σ ts (.operand 0 e)) :
    Compiles σ (.symbol .openParen :: (ts ++ [.symbol .closeParen])) (.operand level e) := by
  intro ls hls next previous markers ps s s' indices hnext hready hresolve
  obtain ⟨l, more, rfl, hl, hmore⟩ := List.map_eq_cons_iff.mp hls
  obtain ⟨inner, last, rfl, hts, hlast⟩ := List.map_eq_append_iff.mp hmore
  obtain ⟨c, rfl, hc⟩ := List.map_eq_singleton_iff.mp hlast
  have hnextInner := isOpenParen_head hc [] next
  have hreadyInner : Ready 0 (some (.symbol .openParen)) (.group ps.length :: markers) :=
    .of_isOpen trivial fun _ start rest => hready.noCall _ start rest
  obtain ⟨r, b, hname, hindices, hmoves, hsettle⟩ :=
    hinner inner hts _ _ (.group ps.length :: markers) ps s s' indices hnextInner hreadyInner
      hresolve
  have hcount : (Output.ofPieces (.tree r :: ps)).operands.length - ps.length = 1 := by
    simp
  have hclose : Move ((inner.getLast?.map Lexeme.token).or (some (.symbol .openParen))) next
      c.position (.symbol .closeParen) b s' ⟨markers, .ofPieces (.tree r :: ps)⟩ s' :=
    .group s' (hsettle 0 (Nat.le_refl _) _) hready.noCall hcount
  exact ⟨r, _, hname, hindices, .step hl (.openParen markers ps s)
    (hmoves.append (.single hc hclose)), fun _ _ _ => rfl⟩

theorem compiles_call (level : Nat) {name : String} {f : Builtin}
    {args : Fin f.arity.operands → Tree String} {ts : List Token}
    (hname : Opcode.ofName? name = some (.function f))
    (hargs : Compiles σ ts (.arguments (List.ofFn args))) :
    Compiles σ (.name name :: .symbol .openParen :: (ts ++ [.symbol .closeParen]))
      (.operand level (.call f args)) := by
  intro ls hls next previous markers ps s s' indices hnext hready hresolve
  obtain ⟨n, more, rfl, hn, hmore⟩ := List.map_eq_cons_iff.mp hls
  obtain ⟨l, more, rfl, hl, hmore⟩ := List.map_eq_cons_iff.mp hmore
  obtain ⟨inner, last, rfl, hts, hlast⟩ := List.map_eq_append_iff.mp hmore
  obtain ⟨c, rfl, hc⟩ := List.map_eq_singleton_iff.mp hlast
  have hnextName := isOpenParen_head hl (inner ++ [c]) next
  have hnextInner := isOpenParen_head hc [] next
  rw [← Tree.flatMap_occurrences_ofFn] at hresolve
  obtain ⟨rs, b, hmap, hindices, hne, hmoves, hsettle⟩ :=
    hargs inner hts _ (some (.symbol .openParen)) (.group ps.length)
      (.call (.function f) n.position :: markers) ps s s' indices hnextInner trivial
      (fun _ _ _ heq => nomatch heq) hresolve
  obtain ⟨args', rfl, hmapArgs⟩ := exists_ofFn_of_map_eq hmap
  have hlen : (List.ofFn args').length = (Opcode.function f).operands := List.length_ofFn
  have hcommas : (List.ofFn args').length - 1 + 1 = (Opcode.function f).operands := by
    rw [hlen, Nat.sub_add_cancel (Output.operands_pos _)]
  have hcount : (Output.ofPieces (((List.ofFn args').map Piece.tree).reverse ++ ps)).operands.length
      - ps.length = (Opcode.function f).operands := by
    rw [Output.operands_ofPieces, Output.length_starts, List.length_append, List.length_reverse,
      List.length_map, hlen, Nat.add_sub_cancel]
  have hclose : Move ((inner.getLast?.map Lexeme.token).or (some (.symbol .openParen))) next
      c.position (.symbol .closeParen) b s' ⟨markers, .ofPieces (.tree (.call f args') :: ps)⟩ s' :=
    .apply s' (hsettle _) hcommas hcount (Output.emit_call f args' ps _)
  refine ⟨.call f args', _, ?_, ?_, .step hn (.call _ _ hname hnextName) (.step hl
    (.openParen _ ps s) (hmoves.append (.single hc hclose))), fun _ _ _ => rfl⟩
  · rw [Tree.map, hmapArgs]
  · rw [Tree.indices_call, hindices]

theorem compiles_lookup (level : Nat) {name group : String} {subscript : Tree String}
    {ts : List Token} (hname : Opcode.ofName? name = some .lookup)
    (hgroup : Opcode.ofName? group = none) (hsubscript : Compiles σ ts (.operand 0 subscript)) :
    Compiles σ (.name name :: .symbol .openParen :: .name group :: .symbol .comma ::
      (ts ++ [.symbol .closeParen])) (.operand level (.lookup group subscript)) := by
  intro ls hls next previous markers ps s s' indices hnext hready hresolve
  obtain ⟨n, more, rfl, hn, hmore⟩ := List.map_eq_cons_iff.mp hls
  obtain ⟨l, more, rfl, hl, hmore⟩ := List.map_eq_cons_iff.mp hmore
  obtain ⟨g, more, rfl, hg, hmore⟩ := List.map_eq_cons_iff.mp hmore
  obtain ⟨k, more, rfl, hk, hmore⟩ := List.map_eq_cons_iff.mp hmore
  obtain ⟨inner, last, rfl, hts, hlast⟩ := List.map_eq_append_iff.mp hmore
  obtain ⟨c, rfl, hc⟩ := List.map_eq_singleton_iff.mp hlast
  obtain ⟨i, s₁, is, hmatrix, hrest, rfl⟩ := resolveAll_cons hresolve
  have hnextName := isOpenParen_head hl (g :: k :: (inner ++ [c])) next
  have hnextGroup := isOpenParen_head hk (inner ++ [c]) next
  have hnextInner := isOpenParen_head hc [] next
  have hbase : Move (some (.symbol .openParen))
      (((k :: (inner ++ [c])).head?.map Lexeme.token).or next) g.position (.name group)
      ⟨.group ps.length :: .call .lookup n.position :: markers, .ofPieces ps⟩ s
      ⟨.group ps.length :: .call .lookup n.position :: markers,
        .ofPieces (.matrix ⟨group, i⟩ :: ps)⟩ s₁ := by
    rw [← Output.push_matrix]
    exact .matrix hgroup hnextGroup rfl hmatrix
  have hreadyInner : Ready 0 (some (.symbol .comma))
      (.comma :: .group ps.length :: .call .lookup n.position :: markers) :=
    .of_isOpen trivial fun h => (nomatch h)
  obtain ⟨r, b, hmap, hindices, hmoves, hsettle⟩ :=
    hsubscript inner hts _ _ _ (.matrix ⟨group, i⟩ :: ps) s₁ s' is hnextInner hreadyInner hrest
  have hcount : (Output.ofPieces (.tree r :: .matrix ⟨group, i⟩ :: ps)).operands.length
      - ps.length = Opcode.lookup.operands := by
    rw [Output.operands_ofPieces, Output.length_starts, List.length_cons, List.length_cons,
      Nat.add_assoc, Nat.add_sub_cancel_left]
    rfl
  have hclose : Move ((inner.getLast?.map Lexeme.token).or (some (.symbol .comma))) next
      c.position (.symbol .closeParen) b s'
      ⟨markers, .ofPieces (.tree (.lookup ⟨group, i⟩ r) :: ps)⟩ s' :=
    .apply (k := 1) s' (hsettle 0 (Nat.le_refl _) _) rfl hcount (Output.emit_lookup _ r ps _)
  refine ⟨.lookup ⟨group, i⟩ r, _, ?_, ?_, .step hn (.call _ _ hname hnextName) (.step hl
    (.openParen _ ps s) (.step hg hbase (.step hk (.comma _ rfl trivial)
      (hmoves.append (.single hc hclose))))), fun _ _ _ => rfl⟩
  · rw [Tree.map, hmap]
  · rw [Tree.indices_lookup, hindices]

theorem compiles_argument {e : Tree String} {ts : List Token}
    (he : Compiles σ ts (.operand 0 e)) : Compiles σ ts (.arguments [e]) := by
  intro ls hls next previous m markers ps s s' indices hnext hopen hgroup hresolve
  rw [List.flatMap_singleton] at hresolve
  obtain ⟨r, b, rfl, rfl, hmoves, hsettle⟩ :=
    he ls hls next previous (m :: markers) ps s s' indices hnext (.of_isOpen hopen hgroup) hresolve
  refine ⟨[r], b, rfl, List.flatMap_singleton .., List.cons_ne_nil _ _, hmoves, fun position => ?_⟩
  rw [hsettle 0 (Nat.le_refl _), hopen.settle_eq]
  rfl

theorem compiles_arguments {e : Tree String} {es : List (Tree String)} {ts us : List Token}
    (he : Compiles σ ts (.operand 0 e)) (hes : Compiles σ us (.arguments es)) :
    Compiles σ (ts ++ .symbol .comma :: us) (.arguments (e :: es)) := by
  intro ls hls next previous m markers ps s s' indices hnext hopen hgroup hresolve
  obtain ⟨first, more, rfl, hfirst, hmore⟩ := List.map_eq_append_iff.mp hls
  obtain ⟨l, others, rfl, hl, hothers⟩ := List.map_eq_cons_iff.mp hmore
  rw [List.flatMap_cons] at hresolve
  obtain ⟨is, s₁, js, hresolve₁, hresolve₂, rfl⟩ := resolveAll_append hresolve
  have hnextFirst := isOpenParen_head hl others next
  obtain ⟨r, b₁, rfl, rfl, hmoves₁, hsettle₁⟩ :=
    he first hfirst _ previous (m :: markers) ps s s₁ is hnextFirst (.of_isOpen hopen hgroup)
      hresolve₁
  have hsettled := (hsettle₁ 0 (Nat.le_refl _) l.position).trans (hopen.settle_eq _ _ _ _)
  obtain ⟨rs, b₂, rfl, rfl, hne, hmoves₂, hsettle₂⟩ :=
    hes others hothers next (some (.symbol .comma)) .comma (m :: markers) (.tree r :: ps) s₁ s' js
      hnext trivial (fun h => nomatch h) hresolve₂
  refine ⟨r :: rs, b₂, rfl, rfl, List.cons_ne_nil _ _,
    hmoves₁.append (.step hl (.comma s₁ hsettled hopen) hmoves₂), fun position => ?_⟩
  have hlen : (r :: rs).length - 1 = rs.length - 1 + 1 := by
    rw [List.length_cons, Nat.add_sub_cancel, Nat.sub_add_cancel (List.length_pos_of_ne_nil hne)]
  rw [hsettle₂, hlen, List.replicate_succ', List.map_cons, List.reverse_cons]
  simp only [List.append_assoc, List.singleton_append]

end Phrase

theorem Phrase.Renders.compiles {φ : Phrase} {tokens : List Token} (h : φ.Renders tokens) :
    φ.Compiles σ tokens := by
  induction h with
  | literal level x => exact Phrase.compiles_literal level x
  | load level hname => exact Phrase.compiles_load level hname
  | operator hlevel _ _ hleft hright =>
    rw [← Operator.precedence_eq_tier] at hlevel hleft hright
    exact Phrase.compiles_operator hlevel hleft hright
  | group level _ hinner => exact Phrase.compiles_group level hinner
  | call level hname _ hargs => exact Phrase.compiles_call level hname hargs
  | lookup level hname hgroup _ hsubscript =>
    exact Phrase.compiles_lookup level hname hgroup hsubscript
  | argument _ he => exact Phrase.compiles_argument he
  | arguments _ _ he hes => exact Phrase.compiles_arguments he hes

/-- Every infix text of an expression compiles to its post-order, whatever its names are resolved
to. -/
theorem run_rendering {e : Tree String} {lexemes : List Lexeme} {s s' : σ} {indices : List Nat}
    (stop : Nat) (hrenders : Phrase.Renders (.operand 0 e) (lexemes.map Lexeme.token))
    (hresolve : resolveAll e.occurrences s = (some indices, s')) :
    ∃ r : Tree Variable, r.map Variable.name = e ∧ r.indices = indices ∧
      run stop none lexemes {} s = (.ok r.program, s') := by
  have hready : Ready 0 none [] :=
    ⟨fun _ _ h => (nomatch h), fun _ _ _ h => (nomatch h), fun h => (nomatch h)⟩
  obtain ⟨r, b, hmap, hindices, hmoves, hsettle⟩ :=
    hrenders.compiles lexemes rfl none none [] [] s s' indices rfl hready hresolve
  refine ⟨r, hmap, hindices, ?_⟩
  have hfinish : Builder.finish stop b.markers b.output = .ok r.program := by
    refine finish_eq_ok_iff.mpr ⟨.ofPieces [.tree r], 0, ?_, rfl, rfl⟩
    exact hsettle 0 (Nat.le_refl _) stop
  have hempty : ({} : Builder) = ⟨[], .ofPieces []⟩ := rfl
  rw [hempty, hmoves.run_eq, hfinish]

/-- Operators of three tiers and none of their parentheses: `a - b * array(a, b) - b`. -/
theorem run_rendering_product :
    ∃ r : Tree Variable, r.map Variable.name =
        .operator .sub
          (.operator .sub (.load "a") (.operator .mul (.load "b") (.lookup "a" (.load "b"))))
          (.load "b") ∧
      r.indices = [0, 1, 0, 1, 1] ∧
      run 23 none
        [⟨.name "a", 0⟩, ⟨.symbol (.operator .sub), 2⟩, ⟨.name "b", 4⟩,
          ⟨.symbol (.operator .mul), 6⟩, ⟨.name "array", 8⟩, ⟨.symbol .openParen, 13⟩, ⟨.name "a", 14⟩,
          ⟨.symbol .comma, 15⟩, ⟨.name "b", 17⟩, ⟨.symbol .closeParen, 18⟩,
          ⟨.symbol (.operator .sub), 20⟩, ⟨.name "b", 22⟩] {}
          (⟨#[("a", #[]), ("b", #[])], 0⟩ : DataTable) =
        (.ok r.program, ⟨#[("a", #[]), ("b", #[])], 0⟩) := by
  have ha : Opcode.ofName? "a" = none := by decide +kernel
  have hb : Opcode.ofName? "b" = none := by decide +kernel
  have harray : Opcode.ofName? "array" = some .lookup := by decide +kernel
  have hlookup : Phrase.Renders (.operand 5 (.lookup "a" (.load "b")))
      [.name "array", .symbol .openParen, .name "a", .symbol .comma, .name "b",
        .symbol .closeParen] :=
    .lookup 5 harray ha (.load 0 hb)
  have hproduct : Phrase.Renders
      (.operand 4 (.operator .mul (.load "b") (.lookup "a" (.load "b")))) _ :=
    .operator (Nat.le_refl 4) (.load 4 hb) hlookup
  have hdifference : Phrase.Renders (.operand 3 (.operator .sub (.load "a") _)) _ :=
    .operator (Nat.le_refl 3) (.load 3 ha) hproduct
  have htext : Phrase.Renders (.operand 0 (.operator .sub _ (.load "b"))) _ :=
    .operator (Nat.zero_le 3) hdifference (.load 4 hb)
  exact run_rendering 23 htext (by cbv)

end Compiles

end ChoiceModel.Expression
