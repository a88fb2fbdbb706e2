/-! The characters of a YAML text, and places between them. -/

namespace ChoiceModel.Yaml

def isBreak (c : Char) : Bool := c == '\n' || c == '\u2028' || c == '\u2029'

def isSpace (c : Char) : Bool := c == ' ' || c == '\t'

/-- Whether a text is at its end, at white space, or at the end of a line. -/
def atGap : List Char → Bool
  | [] => true
  | c :: _ => isSpace c || isBreak c

/-- Whether a line starts with three dashes or three points and nothing else. -/
def atDocument : List Char → Bool
  | '-' :: '-' :: '-' :: rest => atGap rest
  | '.' :: '.' :: '.' :: rest => atGap rest
  | _ => false

def isNameChar (c : Char) : Bool := c.isAlphanum || c == '_' || c == '-'

structure Position where
  line : Nat := 0
  column : Nat := 0
  index : Nat := 0

def Position.next (p : Position) (c : Char) : Position :=
  let index := p.index + c.utf8Size
  if isBreak c then ⟨p.line + 1, 0, index⟩ else ⟨p.line, p.column + 1, index⟩

def Position.over (p : Position) (cs : List Char) : Position := cs.foldl Position.next p

structure Cursor where
  position : Position
  rest : List Char

def hexDigit? (c : Char) : Option Nat :=
  if c.isDigit then some (c.toNat - '0'.toNat)
  else if 'a' ≤ c && c ≤ 'f' then some (c.toNat - 'a'.toNat + 10)
  else if 'A' ≤ c && c ≤ 'F' then some (c.toNat - 'A'.toNat + 10)
  else none

/-- Skips white space, comments and line breaks. A key may start after a line break outside of
flow collections, and no tab may stand where a key may start. -/
def skipAhead (flow allowed comment : Bool) (p : Position) : List Char → Bool × Cursor
  | [] => (allowed, ⟨p, []⟩)
  | c :: rest =>
    if isBreak c then skipAhead flow (allowed || !flow) false (p.next c) rest
    else if comment then skipAhead flow allowed true (p.next c) rest
    else if c == ' ' || (c == '\t' && (flow || !allowed)) || (c == '\ufeff' && p.column == 0) then
      skipAhead flow allowed false (p.next c) rest
    else if c == '#' then skipAhead flow allowed true (p.next c) rest
    else (allowed, ⟨p, c :: rest⟩)

def isPrintable (c : Char) : Bool :=
  let n := c.toNat
  n == 0x9 || n == 0xA || n == 0xD || (0x20 ≤ n && n ≤ 0x7E) || n == 0x85
    || (0xA0 ≤ n && n ≤ 0xFFFD) || 0x10000 ≤ n

/-- A text whose lines all end in the same way. -/
def normalizeBreaks : List Char → List Char
  | [] => []
  | '\r' :: '\n' :: rest => '\n' :: normalizeBreaks rest
  | c :: rest => (if c == '\r' || c == '\u0085' then '\n' else c) :: normalizeBreaks rest

end ChoiceModel.Yaml
