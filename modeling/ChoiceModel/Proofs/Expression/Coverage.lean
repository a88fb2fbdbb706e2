import ChoiceModel.Proofs.Expression.Gaps

/-! What the lexemes of a text cover. Blanks and the sources of lexemes lie one behind the other and leave
nothing out, and every source is what its token looks like. -/

namespace ChoiceModel.Expression

open Text

/-- A lexeme and the characters that it has been read off. -/
structure Source where
  lexeme : Lexeme
  text : List Char

def Symbol.text : Symbol → List Char
  | .operator op => op.symbol.toList
  | .assign => ['=']
  | .bang => ['!']
  | .openParen => ['(']
  | .closeParen => [')']
  | .comma => [',']

/-- How tokens look in a text. The only delimiters in a number are signs. -/
inductive Token.Spelled : Token → List Char → Prop where
  | number {x : Float} {cs : List Char} : Decimal.read cs = .ok x →
    (∀ c ∈ cs, isDelimiter c = true → c = '-' ∨ c = '+') → Spelled (.number x) cs
  | name {cs : List Char} : (∀ c ∈ cs, isDelimiter c = false) → Spelled (.name (String.ofList cs)) cs
  | symbol (sym : Symbol) : Spelled (.symbol sym) sym.text

/-- A text that starts at `position`, as blanks and sources in turn. -/
inductive Covers : Nat → List Char → List Source → Prop where
  | blanks {position : Nat} {bs : List Char} : (∀ c ∈ bs, isBlank c = true) → Covers position bs []
  | source {position : Nat} {bs text rest : List Char} {token : Token} {sources : List Source} :
    (∀ c ∈ bs, isBlank c = true) → text ≠ [] → (∀ c ∈ text, isBlank c = false) →
    token.Spelled text → Covers (position + byteLength bs + byteLength text) rest sources →
    Covers position (bs ++ (text ++ rest)) (⟨⟨token, position + byteLength bs⟩, text⟩ :: sources)

theorem byteLength_pos {cs : List Char} (h : cs ≠ []) : 0 < byteLength cs := by
  cases cs with
  | nil => exact absurd rfl h
  | cons c cs => exact Nat.add_pos_left c.utf8Size_pos _

section Cut

variable {previous : Option Char} {c : Char} {rest : List Char} {k : Cut}

theorem sign_of_mem_spanNumber {last d : Char} {cs : List Char} (hd : d ∈ (spanNumber last cs).1)
    (hdelimiter : isDelimiter d = true) : d = '-' ∨ d = '+' := by
  induction cs generalizing last with
  | nil => cases hd
  | cons c cs ih =>
    rw [spanNumber_cons] at hd
    split at hd
    · cases hd
    · rename_i hends
      rcases List.mem_cons.mp hd with rfl | hd
      · rw [endsNumber, hdelimiter, Bool.true_and, Bool.not_eq_true', Bool.not_eq_false,
          Bool.and_eq_true, Bool.or_eq_true, beq_iff_eq, beq_iff_eq] at hends
        exact hends.1
      · exact ih hd

theorem not_isDelimiter_of_opens (h : opensNumber c = true ∨ isNameStart c = true) :
    isDelimiter c = false := by
  refine eq_false_of_ne_true fun hdelimiter => ?_
  obtain ⟨hnumber, hname⟩ := opens_of_isDelimiter hdelimiter
  rw [hnumber, hname] at h
  rcases h with h | h <;> cases h

/-- What a symbol is shows in its first character and in whether a `=` stands right behind that. -/
theorem cutSymbol_congr (hdelimiter : isDelimiter c = true) {rest rest' : List Char}
    (h : rest.head?.any (· == '=') = rest'.head?.any (· == '=')) :
    (cutSymbol c rest).token = (cutSymbol c rest').token ∧
      (cutSymbol c rest).text = (cutSymbol c rest').text := by
  rcases cutSymbol_cases hdelimiter with ⟨t, ht⟩ | ⟨t, ht⟩
  · rw [ht, ht]
    exact ⟨rfl, rfl⟩
  · have hequal : ∀ {cs : List Char}, cs.head?.any (· == '=') = true → ∃ tail, cs = '=' :: tail := by
      intro cs hcs
      cases cs with
      | nil => cases hcs
      | cons d tail => exact ⟨tail, congrArg (· :: tail) (beq_iff_eq.mp hcs)⟩
    cases hrest : rest.head?.any (· == '=') with
    | true =>
      obtain ⟨tail, rfl⟩ := hequal hrest
      obtain ⟨tail', rfl⟩ := hequal (h ▸ hrest)
      rw [(ht tail).1, (ht tail').1]
      exact ⟨rfl, rfl⟩
    | false =>
      rw [(ht rest).2 hrest, (ht rest').2 (h ▸ hrest)]
      exact ⟨rfl, rfl⟩

theorem spelled_cutSymbol (hdelimiter : isDelimiter c = true) (hblank : isBlank c = false) :
    (cutSymbol c rest).token.Spelled (cutSymbol c rest).text := by
  obtain ⟨more, hmore, hhead⟩ : ∃ more : List Char, (more = [] ∨ more = ['=']) ∧
      rest.head?.any (· == '=') = more.head?.any (· == '=') := by
    cases rest.head?.any (· == '=') with
    | true => exact ⟨['='], .inr rfl, rfl⟩
    | false => exact ⟨[], .inl rfl, rfl⟩
  obtain ⟨htoken, htext⟩ := cutSymbol_congr hdelimiter hhead
  obtain ⟨sym, hsym, hspelling⟩ : ∃ sym : Symbol, (cutSymbol c more).token = .symbol sym ∧
      (cutSymbol c more).text = sym.text := by
    have hmem : c ∈ delimiters := List.contains_iff_mem.mp hdelimiter
    simp only [delimiters, List.mem_cons, List.not_mem_nil, or_false] at hmem
    rcases hmem with rfl | rfl | rfl | rfl | rfl | rfl | rfl | rfl | rfl | rfl | rfl | rfl | rfl |
      rfl | rfl | rfl
    all_goals first
      | exact absurd hblank (by decide)
      | rcases hmore with rfl | rfl <;> exact ⟨_, rfl, rfl⟩
  rw [htoken, htext, hsym, hspelling]
  exact .symbol sym

theorem spelled_cut (hblank : isBlank c = false) (h : cut previous c rest = .ok k) :
    k.token.Spelled k.text := by
  cases cut_eq_ok_iff.mp h with
  | number hopens hk =>
    obtain ⟨x, hread, rfl⟩ := cutNumber_eq_ok_iff.mp hk
    refine .number hread fun d hd hdelimiter => ?_
    rcases List.mem_cons.mp hd with rfl | hd
    · rcases hopens with ⟨hminus, -⟩ | hopens
      · exact .inl hminus
      · rw [not_isDelimiter_of_opens (.inl hopens)] at hdelimiter
        cases hdelimiter
    · exact sign_of_mem_spanNumber hd hdelimiter
  | name hname =>
    refine .name fun d hd => ?_
    rcases List.mem_cons.mp hd with rfl | hd
    · exact not_isDelimiter_of_opens (.inr hname)
    · have hpart := List.all_eq_true.mp List.all_takeWhile d hd
      simpa using hpart
  | symbol hdelimiter _ => exact spelled_cutSymbol hdelimiter hblank

end Cut

namespace Covers

variable {position : Nat} {cs : List Char} {sources : List Source}

theorem blank_cons {c : Char} (hblank : isBlank c = true)
    (h : Covers (position + c.utf8Size) cs sources) : Covers position (c :: cs) sources := by
  have hcons : ∀ {bs : List Char}, (∀ d ∈ bs, isBlank d = true) → ∀ d ∈ c :: bs, isBlank d = true :=
    fun hbs => List.forall_mem_cons.mpr ⟨hblank, hbs⟩
  cases h with
  | blanks hbs => exact .blanks (hcons hbs)
  | source hbs hne htext hspelled hrest =>
    rw [Nat.add_assoc position, ← byteLength_cons] at hrest ⊢
    exact .source (hcons hbs) hne htext hspelled hrest

theorem of_scans {previous : Option Char} {lexed : Scan} (h : Scans position previous cs lexed) :
    ∃ sources, sources.map Source.lexeme = lexed.lexemes ∧ Covers position cs sources := by
  induction h with
  | nil position previous => exact ⟨[], rfl, .blanks fun _ hc => nomatch hc⟩
  | blank hblank _ ih =>
    obtain ⟨sources, hlexemes, hcovers⟩ := ih
    exact ⟨sources, hlexemes, hcovers.blank_cons hblank⟩
  | @lexeme position previous c rest k lexed hblank hcut _ ih =>
    obtain ⟨sources, hlexemes, hcovers⟩ := ih
    refine ⟨⟨⟨k.token, position⟩, k.text⟩ :: sources, congrArg _ hlexemes, ?_⟩
    rw [← cut_append hcut]
    have hnone : ∀ d ∈ ([] : List Char), isBlank d = true := fun _ hd => nomatch hd
    exact .source hnone (cut_text_ne_nil hcut) (fun d => isBlank_of_mem_text hblank hcut)
      (spelled_cut hblank hcut) hcovers

theorem le_position (h : Covers position cs sources) {s : Source} (hs : s ∈ sources) :
    position ≤ s.lexeme.position := by
  induction h with
  | blanks _ => cases hs
  | source _ _ _ _ _ ih =>
    rcases List.mem_cons.mp hs with rfl | hs
    · exact Nat.le_add_right _ _
    · exact Nat.le_of_add_right_le (Nat.le_of_add_right_le (ih hs))

/-- The lexemes stand one behind the other, up to the end of the text. -/
theorem pairwise_lt (h : Covers position cs sources) :
    ((sources.map fun s => s.lexeme.position) ++ [position + byteLength cs]).Pairwise (· < ·) := by
  induction h with
  | blanks _ => exact List.pairwise_singleton _ _
  | @source position bs text rest token sources _ hne _ _ hrest ih =>
    have hpos : 0 < byteLength text := byteLength_pos hne
    rw [List.map_cons, List.cons_append, List.pairwise_cons, byteLength_append, byteLength_append,
      ← Nat.add_assoc, ← Nat.add_assoc]
    refine ⟨fun p hp => ?_, ih⟩
    rcases List.mem_append.mp hp with hp | hp
    · obtain ⟨s, hs, rfl⟩ := List.mem_map.mp hp
      have hle := hrest.le_position hs
      dsimp only
      omega
    · rw [List.mem_singleton.mp hp]
      dsimp only
      omega

theorem length_le (h : Covers position cs sources) : sources.length ≤ byteLength cs := by
  induction h with
  | blanks _ => exact Nat.zero_le _
  | source _ hne _ _ _ ih =>
    have hpos := byteLength_pos hne
    rw [List.length_cons, byteLength_append, byteLength_append]
    omega

end Covers

theorem Scans.stop_eq {position : Nat} {previous : Option Char} {cs : List Char} {lexed : Scan}
    (h : Scans position previous cs lexed) : lexed.stop = position + byteLength cs := by
  induction h with
  | nil position previous => rfl
  | blank _ _ ih => rw [ih, byteLength_cons, Nat.add_assoc]
  | lexeme _ hcut _ ih => rw [ih, ← cut_append hcut, byteLength_append, Nat.add_assoc]

/-! ### Parentheses -/

/-- The symbol that a parenthesis is. -/
def parenthesis? : Char → Option Symbol
  | '(' => some .openParen
  | ')' => some .closeParen
  | _ => none

theorem parenthesis?_eq_some {c : Char} {sym : Symbol} (h : parenthesis? c = some sym) :
    c = '(' ∧ sym = .openParen ∨ c = ')' ∧ sym = .closeParen := by
  unfold parenthesis? at h
  split at h
  · cases h
    exact .inl ⟨rfl, rfl⟩
  · cases h
    exact .inr ⟨rfl, rfl⟩
  · cases h

/-- A parenthesis is all there is of its token. -/
theorem Token.Spelled.parenthesis {token : Token} {text : List Char} {c : Char} {sym : Symbol}
    (h : token.Spelled text) (hc : c ∈ text) (hsym : parenthesis? c = some sym) :
    token = .symbol sym ∧ text = [c] := by
  have hdelimiter : isDelimiter c = true ∧ ¬ (c = '-' ∨ c = '+') := by
    rcases parenthesis?_eq_some hsym with ⟨rfl, -⟩ | ⟨rfl, -⟩
    all_goals decide
  cases h with
  | number _ hsigns => exact absurd (hsigns c hc hdelimiter.1) hdelimiter.2
  | name hnone =>
    rw [hnone c hc] at hdelimiter
    cases hdelimiter.1
  | symbol sym' =>
    rcases parenthesis?_eq_some hsym with ⟨rfl, rfl⟩ | ⟨rfl, rfl⟩
    all_goals
      cases sym' with
      | operator op => cases op <;> exact absurd hc (by decide)
      | assign => exact absurd hc (by decide)
      | bang => exact absurd hc (by decide)
      | openParen => first | exact ⟨rfl, rfl⟩ | exact absurd hc (by decide)
      | closeParen => first | exact ⟨rfl, rfl⟩ | exact absurd hc (by decide)
      | comma => exact absurd hc (by decide)

/-- Every parenthesis of a text is a lexeme of its own. -/
theorem Covers.parenthesis {position : Nat} {cs before after : List Char} {sources : List Source}
    {c : Char} {sym : Symbol} (h : Covers position cs sources) (hcs : cs = before ++ c :: after)
    (hsym : parenthesis? c = some sym) :
    ⟨⟨.symbol sym, position + byteLength before⟩, [c]⟩ ∈ sources := by
  have hblank : isBlank c = false := by
    rcases parenthesis?_eq_some hsym with ⟨rfl, -⟩ | ⟨rfl, -⟩
    all_goals rfl
  have hnot : ∀ {bs : List Char}, (∀ d ∈ bs, isBlank d = true) → c ∉ bs := fun hbs hc => by
    rw [hbs c hc] at hblank
    cases hblank
  induction h generalizing before with
  | blanks hbs => exact absurd (hcs ▸ List.mem_append_right _ List.mem_cons_self) (hnot hbs)
  | @source position bs text rest token sources hbs _ _ hspelled _ ih =>
    obtain ⟨behind, rfl, htail⟩ := exists_of_append_eq (hnot hbs) hcs
    by_cases hc : c ∈ text
    · obtain ⟨rfl, rfl⟩ := hspelled.parenthesis hc hsym
      cases behind with
      | nil =>
        rw [List.append_nil]
        exact List.mem_cons_self
      | cons d behind =>
        obtain ⟨rfl, hrest⟩ := List.cons.inj htail
        have hmem := ih hrest
        rw [Nat.add_assoc, Nat.add_assoc, ← byteLength_append, ← byteLength_append] at hmem
        exact List.mem_cons_of_mem _ hmem
    · obtain ⟨behind, rfl, hrest⟩ := exists_of_append_eq hc htail
      have hmem := ih hrest
      rw [Nat.add_assoc, Nat.add_assoc, ← byteLength_append, ← byteLength_append] at hmem
      exact List.mem_cons_of_mem _ hmem

end ChoiceModel.Expression
