import ChoiceModel.Decimal.Read
import ChoiceModel.Text.Blank
import ChoiceModel.Expression.Alphabet
import ChoiceModel.Expression.Error

/-! Lexemes of expression text: numbers, names and symbols, each with the byte it starts at. A scan
cuts one lexeme after another off the front of the text, and a cut loses no character. -/

namespace ChoiceModel.Expression

open Text

inductive Symbol where
  | operator (op : Operator)
  /-- A single `=`, which only separates the target of an assignment. -/
  | assign
  /-- A single `!`, which means nothing. -/
  | bang
  | openParen
  | closeParen
  | comma
deriving DecidableEq, Repr

inductive Token where
  | number (x : Float)
  | name (s : String)
  | symbol (s : Symbol)

/-- A token and the byte offset that it starts at. -/
structure Lexeme where
  token : Token
  position : Nat

structure Cut where
  token : Token
  text : List Char
  rest : List Char

/-- Whether a `-` belongs to the number after it: a digit or a point follows, and no operand ends
right before it. -/
def startsNegative (previous : Option Char) (rest : List Char) : Bool :=
  let digitFollows := match rest with
    | c :: _ => c.isDigit || c == '.'
    | [] => false
  let operandPrecedes := match previous with
    | none => false
    | some p => p == ')' || !isDelimiter p
  digitFollows && !operandPrecedes

/-- Splits off what still belongs to a number whose last character so far is `last`. A sign right
after an exponent mark belongs to it, any other delimiter ends it. -/
def spanNumber (last : Char) : List Char → List Char × List Char
  | [] => ([], [])
  | c :: rest =>
    let exponentSign := (c == '-' || c == '+') && (last == 'e' || last == 'E')
    if isDelimiter c && !exponentSign then ([], c :: rest)
    else
      let (number, after) := spanNumber c rest
      (c :: number, after)

theorem spanNumber_append (last : Char) (cs : List Char) :
    (spanNumber last cs).1 ++ (spanNumber last cs).2 = cs := by
  induction cs generalizing last with
  | nil => rfl
  | cons c rest ih =>
    simp only [spanNumber]
    split
    · rfl
    · simpa using ih c

def cutNumber (c : Char) (rest : List Char) : Except Fault Cut :=
  let (more, after) := spanNumber c rest
  match Decimal.read (c :: more) with
  | .ok x => .ok ⟨.number x, c :: more, after⟩
  | .error _ => .error (.invalidNumber (String.ofList (c :: more)))

def cutName (c : Char) (rest : List Char) : Cut :=
  let more := rest.takeWhile fun d => !isDelimiter d
  ⟨.name (String.ofList (c :: more)), c :: more, rest.dropWhile fun d => !isDelimiter d⟩

/-- The symbol that starts with `c`, of two characters where a `=` makes it a comparison. -/
def cutSymbol (c : Char) (rest : List Char) : Cut :=
  let single (s : Symbol) : Cut := ⟨.symbol s, [c], rest⟩
  let withEqual (op : Operator) (s : Symbol) : Cut :=
    match rest with
    | '=' :: after => ⟨.symbol (.operator op), [c, '='], after⟩
    | _ => single s
  match c with
  | '+' => single (.operator .add)
  | '-' => single (.operator .sub)
  | '*' => single (.operator .mul)
  | '/' => single (.operator .div)
  | '%' => single (.operator .mod)
  | '^' => single (.operator .pow)
  | '(' => single .openParen
  | ')' => single .closeParen
  | ',' => single .comma
  | '=' => withEqual .eq .assign
  | '!' => withEqual .ne .bang
  | '<' => withEqual .le (.operator .lt)
  | _ => withEqual .ge (.operator .gt)

/-- Cuts the lexeme that starts at `c`, which is no blank, off the text `c :: rest`; `previous` is
the last character of the lexeme before it. -/
def cut (previous : Option Char) (c : Char) (rest : List Char) : Except Fault Cut :=
  if c == '-' && startsNegative previous rest then cutNumber c rest
  else if c.isDigit || c == '.' then cutNumber c rest
  else if isNameStart c then .ok (cutName c rest)
  else if isDelimiter c then .ok (cutSymbol c rest)
  else .error (.unexpectedCharacter c)

theorem cutSymbol_append (c : Char) (rest : List Char) :
    (cutSymbol c rest).text ++ (cutSymbol c rest).rest = c :: rest := by
  unfold cutSymbol
  dsimp only
  repeat' split
  all_goals rfl

theorem cutName_append (c : Char) (rest : List Char) :
    (cutName c rest).text ++ (cutName c rest).rest = c :: rest := by
  simp [cutName, List.takeWhile_append_dropWhile]

theorem cutNumber_append {c : Char} {rest : List Char} {k : Cut} (h : cutNumber c rest = .ok k) :
    k.text ++ k.rest = c :: rest := by
  simp only [cutNumber] at h
  split at h
  · cases h
    simpa using spanNumber_append c rest
  · cases h

theorem cut_append {previous : Option Char} {c : Char} {rest : List Char} {k : Cut}
    (h : cut previous c rest = .ok k) : k.text ++ k.rest = c :: rest := by
  unfold cut at h
  split at h
  · exact cutNumber_append h
  split at h
  · exact cutNumber_append h
  split at h
  · cases h
    exact cutName_append c rest
  split at h
  · cases h
    exact cutSymbol_append c rest
  · cases h

theorem cutNumber_text_ne_nil {c : Char} {rest : List Char} {k : Cut}
    (h : cutNumber c rest = .ok k) : k.text ≠ [] := by
  simp only [cutNumber] at h
  split at h <;> cases h
  simp

theorem cutSymbol_text_ne_nil (c : Char) (rest : List Char) : (cutSymbol c rest).text ≠ [] := by
  unfold cutSymbol
  dsimp only
  repeat' split
  all_goals simp

theorem cut_text_ne_nil {previous : Option Char} {c : Char} {rest : List Char} {k : Cut}
    (h : cut previous c rest = .ok k) : k.text ≠ [] := by
  unfold cut at h
  split at h
  · exact cutNumber_text_ne_nil h
  split at h
  · exact cutNumber_text_ne_nil h
  split at h
  · cases h
    simp [cutName]
  split at h
  · cases h
    exact cutSymbol_text_ne_nil c rest
  · cases h

theorem cut_rest_length {previous : Option Char} {c : Char} {rest : List Char} {k : Cut}
    (h : cut previous c rest = .ok k) : k.rest.length < (c :: rest).length := by
  have hlen := congrArg List.length (cut_append h)
  have hpos := List.length_pos_iff.mpr (cut_text_ne_nil h)
  simp only [List.length_append] at hlen
  omega

/-- The lexemes of a text, and the position at which the text ends. -/
structure Scan where
  lexemes : List Lexeme
  stop : Nat

/-- Scans the text from `position` on, after a lexeme that ends in `previous`. -/
def scanFrom (position : Nat) (previous : Option Char) : List Char → Except SyntaxError Scan
  | [] => .ok ⟨[], position⟩
  | c :: rest =>
    if isBlank c then scanFrom (position + c.utf8Size) previous rest
    else
      match _ : cut previous c rest with
      | .error fault => .error (.malformed fault position)
      | .ok k =>
        match scanFrom (position + byteLength k.text) k.text.getLast? k.rest with
        | .ok scan => .ok { scan with lexemes := ⟨k.token, position⟩ :: scan.lexemes }
        | .error e => .error e
termination_by cs => cs.length
decreasing_by
  · simp
  · rename_i h
    exact cut_rest_length h

def scan (cs : List Char) : Except SyntaxError Scan := scanFrom 0 none cs

end ChoiceModel.Expression
