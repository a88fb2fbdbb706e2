import ChoiceModel.Expression.Compile

/-! The infix sentences, as a grammar on tokens. Two facts about token lists alone tell how a text
can fail to be one: in a sentence no operand stands directly behind another, and a text in which
none does, with one operand more than separators, has operands and separators in turn. -/

namespace ChoiceModel.Expression

inductive Syntax where
  | expression
  | primary
  | arguments (n : Nat)

inductive Sentence : Syntax → List Token → Prop where
  | number (x : Float) : Sentence .primary [.number x]
  | name {name : String} : Opcode.ofName? name = none → Sentence .primary [.name name]
  | group {ts : List Token} : Sentence .expression ts →
    Sentence .primary (.symbol .openParen :: (ts ++ [.symbol .closeParen]))
  | call {name : String} {f : Builtin} {ts : List Token} :
    Opcode.ofName? name = some (.function f) → Sentence (.arguments f.arity.operands) ts →
    Sentence .primary (.name name :: .symbol .openParen :: (ts ++ [.symbol .closeParen]))
  | lookup {name group : String} {ts : List Token} :
    Opcode.ofName? name = some .lookup → Opcode.ofName? group = none → Sentence .expression ts →
    Sentence .primary (.name name :: .symbol .openParen :: .name group :: .symbol .comma ::
      (ts ++ [.symbol .closeParen]))
  | operand {ts : List Token} : Sentence .primary ts → Sentence .expression ts
  | operation (op : Operator) {ts us : List Token} : Sentence .expression ts →
    Sentence .primary us → Sentence .expression (ts ++ .symbol (.operator op) :: us)
  | argument {ts : List Token} : Sentence .expression ts → Sentence (.arguments 1) ts
  | arguments {n : Nat} {ts us : List Token} : Sentence (.arguments n) ts →
    Sentence .expression us → Sentence (.arguments (n + 1)) (ts ++ .symbol .comma :: us)

def Token.endsOperand : Token → Bool
  | .number _ | .name _ | .symbol .closeParen => true
  | .symbol _ => false

def Token.isName : Token → Bool
  | .name _ => true
  | _ => false

def Token.beginsOperand : Token → Bool
  | .number _ | .name _ | .symbol .openParen => true
  | .symbol _ => false

/-- Whether an operand ends with the token `t` and another one begins with the token `u` after it. A
name in front of a parenthesis is that of a call. -/
def Token.juxtaposes (t u : Token) : Bool :=
  t.endsOperand && u.beginsOperand && !(t.isName && u.isOpenParen)

/-- Whether two operands stand side by side somewhere. -/
def juxtaposed : List Token → Bool
  | t :: u :: ts => t.juxtaposes u || juxtaposed (u :: ts)
  | _ => false

def Symbol.IsSeparator : Symbol → Prop
  | .openParen | .closeParen => False
  | .operator _ | .comma | .assign | .bang => True

theorem juxtaposes_symbol (t : Token) {sym : Symbol} (h : sym ≠ .openParen) :
    t.juxtaposes (.symbol sym) = false := by
  have hbegins : (Token.symbol sym).beginsOperand = false := by
    cases sym with
    | openParen => exact (h rfl).elim
    | closeParen => rfl
    | comma => rfl
    | assign => rfl
    | bang => rfl
    | operator op => rfl
  rw [Token.juxtaposes, hbegins, Bool.and_false, Bool.false_and]

theorem symbol_juxtaposes {sym : Symbol} (h : sym ≠ .closeParen) (t : Token) :
    (Token.symbol sym).juxtaposes t = false := by
  have hends : (Token.symbol sym).endsOperand = false := by
    cases sym with
    | closeParen => exact (h rfl).elim
    | openParen => rfl
    | comma => rfl
    | assign => rfl
    | bang => rfl
    | operator op => rfl
  rw [Token.juxtaposes, hends, Bool.false_and, Bool.false_and]

theorem juxtaposed_symbol_cons {sym : Symbol} (h : sym ≠ .closeParen) (ts : List Token) :
    juxtaposed (.symbol sym :: ts) = juxtaposed ts := by
  cases ts with
  | nil => rfl
  | cons t ts => rw [juxtaposed, symbol_juxtaposes h, Bool.false_or]

theorem juxtaposed_append_symbol (ts us : List Token) {sym : Symbol} (h : sym ≠ .openParen) :
    juxtaposed (ts ++ .symbol sym :: us) = (juxtaposed ts || juxtaposed (.symbol sym :: us)) := by
  induction ts with
  | nil => rfl
  | cons t ts ih =>
    cases ts with
    | nil =>
      rw [List.cons_append, List.nil_append, juxtaposed, juxtaposes_symbol t h]
      rfl
    | cons u ts =>
      rw [List.cons_append] at ih
      rw [List.cons_append, List.cons_append, juxtaposed, ih, juxtaposed, Bool.or_assoc]

theorem juxtaposed_append_separator (ts us : List Token) {sym : Symbol} (h : sym.IsSeparator) :
    juxtaposed (ts ++ .symbol sym :: us) = (juxtaposed ts || juxtaposed us) := by
  have hopen : sym ≠ .openParen := by
    rintro rfl
    exact h
  have hclose : sym ≠ .closeParen := by
    rintro rfl
    exact h
  rw [juxtaposed_append_symbol ts us hopen, juxtaposed_symbol_cons hclose]

theorem juxtaposed_parenthesized (ts : List Token) :
    juxtaposed (.symbol .openParen :: (ts ++ [.symbol .closeParen])) = juxtaposed ts := by
  rw [juxtaposed_symbol_cons Symbol.noConfusion, juxtaposed_append_symbol ts [] Symbol.noConfusion]
  exact Bool.or_false _

/-- No operand of a sentence stands directly behind another. -/
theorem Sentence.not_juxtaposed {x : Syntax} {ts : List Token} (h : Sentence x ts) :
    juxtaposed ts = false := by
  induction h with
  | number x => rfl
  | name _ => rfl
  | group _ ih => rw [juxtaposed_parenthesized, ih]
  | call _ _ ih =>
    rw [juxtaposed, juxtaposed_parenthesized, ih]
    rfl
  | lookup _ _ _ ih =>
    rw [← List.cons_append, ← List.cons_append, juxtaposed, juxtaposed_parenthesized]
    rw [juxtaposed, juxtaposed_symbol_cons Symbol.noConfusion, ih]
    rfl
  | operand _ ih => exact ih
  | operation op _ _ ihLeft ihRight =>
    have hsep : (Symbol.operator op).IsSeparator := trivial
    rw [juxtaposed_append_separator _ _ hsep, ihLeft, ihRight]
    rfl
  | argument _ ih => exact ih
  | arguments _ _ ihFirst ihLast =>
    have hsep : Symbol.comma.IsSeparator := trivial
    rw [juxtaposed_append_separator _ _ hsep, ihFirst, ihLast]
    rfl

/-- Whether a token opens a call when the tokens `ts` follow it. -/
def opensCall (ts : List Token) : Bool := ts.head?.any Token.isOpenParen

/-- The operands among tokens that are a single token. -/
def leaves : List Token → Nat
  | [] => 0
  | .number _ :: ts => leaves ts + 1
  | .name _ :: ts => if opensCall ts then leaves ts else leaves ts + 1
  | .symbol _ :: ts => leaves ts

def separators : List Token → Nat
  | [] => 0
  | .symbol .openParen :: ts | .symbol .closeParen :: ts => separators ts
  | .symbol _ :: ts => separators ts + 1
  | .number _ :: ts | .name _ :: ts => separators ts

/-- Whether operands and separators come in turn; the flag tells whether an operand has just
ended. -/
def Alternates : Bool → List Token → Prop
  | ended, [] => ended = true
  | false, .number _ :: ts => Alternates true ts
  | false, .name _ :: ts => Alternates (!opensCall ts) ts
  | false, .symbol .openParen :: ts => Alternates false ts
  | false, .symbol _ :: _ => False
  | true, .number _ :: _ | true, .name _ :: _ | true, .symbol .openParen :: _ => False
  | true, .symbol .closeParen :: ts => Alternates true ts
  | true, .symbol _ :: ts => Alternates false ts

theorem head_of_juxtaposed {t : Token} {ts : List Token} (h : juxtaposed (t :: ts) = false)
    (hends : t.endsOperand = true) (hcall : t.isName = true → opensCall ts = false) :
    ts.head?.any Token.beginsOperand = false := by
  cases ts with
  | nil => rfl
  | cons u ts =>
    rw [juxtaposed, Bool.or_eq_false_iff, Token.juxtaposes, hends, Bool.true_and] at h
    cases hname : t.isName with
    | false =>
      rw [hname, Bool.false_and, Bool.not_false, Bool.and_true] at h
      exact h.1
    | true =>
      have hopen : u.isOpenParen = false := hcall hname
      rw [hopen, Bool.and_false, Bool.not_false, Bool.and_true] at h
      exact h.1

theorem not_juxtaposed_tail {t : Token} {ts : List Token} (h : juxtaposed (t :: ts) = false) :
    juxtaposed ts = false := by
  cases ts with
  | nil => rfl
  | cons u ts =>
    rw [juxtaposed, Bool.or_eq_false_iff] at h
    exact h.2

theorem separators_symbol {sym : Symbol} (h : sym.IsSeparator) (ts : List Token) :
    separators (.symbol sym :: ts) = separators ts + 1 := by
  cases sym with
  | openParen => exact h.elim
  | closeParen => exact h.elim
  | comma => rfl
  | assign => rfl
  | bang => rfl
  | operator op => rfl

theorem alternates_symbol {sym : Symbol} (h : sym.IsSeparator) (ts : List Token) :
    Alternates true (.symbol sym :: ts) ↔ Alternates false ts := by
  cases sym with
  | openParen => exact h.elim
  | closeParen => exact h.elim
  | comma => exact Iff.rfl
  | assign => exact Iff.rfl
  | bang => exact Iff.rfl
  | operator op => exact Iff.rfl

/-- A separator makes up for the leaf in front of it. -/
theorem alternates_separator (sym : Symbol) (hsep : sym.IsSeparator) {ts : List Token}
    (h : leaves ts ≤ separators ts + 1 ∧ (leaves ts = separators ts + 1 → Alternates false ts))
    (ended : Bool) :
    leaves (.symbol sym :: ts) + ended.toNat ≤ separators (.symbol sym :: ts) + 1 ∧
      (leaves (.symbol sym :: ts) + ended.toNat = separators (.symbol sym :: ts) + 1 →
        Alternates ended (.symbol sym :: ts)) := by
  rw [separators_symbol hsep, leaves]
  cases ended with
  | true =>
    rw [alternates_symbol hsep]
    exact ⟨Nat.succ_le_succ h.1, fun heq => h.2 (Nat.succ.inj heq)⟩
  | false =>
    refine ⟨Nat.le_succ_of_le h.1, fun heq => ?_⟩
    exact absurd heq (Nat.ne_of_lt (Nat.lt_succ_of_le h.1))

/-- Where no operands stand side by side, every leaf but the first has a separator in front of it.
If no separator is left over, then operands and separators come in turn. -/
theorem alternates_of_not_juxtaposed {ts : List Token} {ended : Bool}
    (h : juxtaposed ts = false) (hfirst : ended = true → ts.head?.any Token.beginsOperand = false) :
    leaves ts + ended.toNat ≤ separators ts + 1 ∧
      (leaves ts + ended.toNat = separators ts + 1 → Alternates ended ts) := by
  induction ts generalizing ended with
  | nil =>
    cases ended with
    | false => exact ⟨Nat.zero_le _, fun heq => nomatch heq⟩
    | true => exact ⟨Nat.le_refl _, fun _ => rfl⟩
  | cons t ts ih =>
    have htail := not_juxtaposed_tail h
    have hended : t.beginsOperand = true → ended = false := fun hbegins => by
      cases ended with
      | false => rfl
      | true => exact absurd hbegins (Bool.eq_false_iff.mp (hfirst rfl))
    have hafter : t.endsOperand = true → (t.isName = true → opensCall ts = false) →
        leaves ts + 1 ≤ separators ts + 1 ∧
          (leaves ts + 1 = separators ts + 1 → Alternates true ts) := fun hends hcall =>
      @ih true htail fun _ => head_of_juxtaposed h hends hcall
    have hbefore : leaves ts ≤ separators ts + 1 ∧
        (leaves ts = separators ts + 1 → Alternates false ts) :=
      @ih false htail fun heq => nomatch heq
    cases t with
    | number x =>
      cases hended rfl
      exact hafter rfl fun heq => nomatch heq
    | name name =>
      cases hended rfl
      cases hcall : opensCall ts with
      | false =>
        have hafter := hafter rfl fun _ => hcall
        simp only [leaves, separators, Alternates, hcall, Bool.not_false]
        exact hafter
      | true =>
        simp only [leaves, separators, Alternates, hcall, Bool.not_true, if_true]
        exact hbefore
    | symbol sym =>
      cases sym with
      | openParen =>
        cases hended rfl
        exact hbefore
      | closeParen =>
        have hafter := hafter rfl fun heq => nomatch heq
        cases ended with
        | true => exact hafter
        | false =>
          have hle : leaves ts ≤ separators ts := Nat.le_of_succ_le_succ hafter.1
          exact ⟨Nat.le_succ_of_le hle, fun heq => absurd heq (Nat.ne_of_lt (Nat.lt_succ_of_le hle))⟩
      | comma => exact alternates_separator .comma trivial hbefore ended
      | assign => exact alternates_separator .assign trivial hbefore ended
      | bang => exact alternates_separator .bang trivial hbefore ended
      | operator op => exact alternates_separator (.operator op) trivial hbefore ended

end ChoiceModel.Expression
