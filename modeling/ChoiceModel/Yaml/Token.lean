import ChoiceModel.Yaml.Scalar
import ChoiceModel.Yaml.Tag

/-! Tokens of a YAML text. A mapping key is recognised only at the `:` after it, so that its token
is put in front of what has been scanned since. Tokens of aliases hold the number of their anchor,
and those of tags the tag that is meant. -/

namespace ChoiceModel.Yaml

inductive Token where
  | directive
  | documentStart
  | documentEnd
  | blockSequence
  | blockMapping
  | blockEnd
  | openSequence
  | closeSequence
  | openMapping
  | closeMapping
  | blockEntry
  | flowEntry
  | key
  | value
  | reference (anchor : Nat)
  | anchor (number : Nat)
  | tag (tag : Tag)
  | scalar (style : Style) (text : String)
deriving DecidableEq

/-- The numbers of anchors by their names. -/
abbrev Anchors := List (String × Nat)

/-- Numbers an anchor by the count of the names before it. An anchor whose name is known takes
that number in place of its old one, so that the anchor after it may have the same. -/
def Anchors.define (as : Anchors) (name : String) : Nat × Anchors :=
  (as.length, (name, as.length) :: as.filter fun a => a.1 != name)

/-- A token that may turn out to be a key. -/
structure PossibleKey where
  token : Nat
  required : Bool
  position : Position

structure Scanner where
  cursor : Cursor
  tokens : Array Token := #[]
  flow : Nat := 0
  indent : Int := -1
  indents : List Int := []
  allowed : Bool := true
  /-- The possible key of every flow level, the innermost first. -/
  keys : List (Option PossibleKey) := [none]
  anchors : Anchors := []
  versioned : Bool := false
  handles : Handles := []

namespace Scanner

def inFlow (s : Scanner) : Bool := s.flow > 0

def column (s : Scanner) : Int := s.cursor.position.column

def push (s : Scanner) (t : Token) : Scanner := { s with tokens := s.tokens.push t }

def skip (s : Scanner) (n : Nat) : Scanner :=
  let c := s.cursor
  { s with cursor := ⟨c.position.over (c.rest.take n), c.rest.drop n⟩ }

/-- Closes the blocks that are indented deeper than `column`; `outer` are the indentations around
the block. -/
def unrollFrom (column : Int) (s : Scanner) (outer : List Int) : Scanner :=
  match outer with
  | [] => s
  | indent :: indents =>
    if s.indent > column then
      unrollFrom column ({ s with indent, indents }.push .blockEnd) indents
    else s

def unroll (s : Scanner) (column : Int) : Scanner :=
  if s.inFlow then s else unrollFrom column s s.indents

/-- Opens a block at `column`, with its token at the place `i`, if it is indented deeper than the
one around it. -/
def roll (s : Scanner) (column : Int) (i : Nat) (t : Token) : Scanner :=
  if !s.inFlow && s.indent < column then
    let tokens := s.tokens.insertIdxIfInBounds i t
    { s with indents := s.indent :: s.indents, indent := column, tokens }
  else s

/-- Gives up the possible key of this flow level, unless its line has to be one. -/
def dropKey (s : Scanner) : Option Scanner :=
  match s.keys with
  | some k :: keys => if k.required then none else some { s with keys := none :: keys }
  | _ => some s

def saveKey (s : Scanner) : Option Scanner :=
  if s.allowed then do
    let s ← s.dropKey
    let required := !s.inFlow && s.indent == s.column
    return { s with keys := some ⟨s.tokens.size, required, s.cursor.position⟩ :: s.keys.drop 1 }
  else some s

/-- Gives up possible keys that do not end on this line, or not within 1024 octets. -/
def dropStale (s : Scanner) : Option Scanner := do
  let here := s.cursor.position
  let keys ← s.keys.mapM fun key =>
    match key with
    | none => some none
    | some k =>
      if k.position.line < here.line || k.position.index + 1024 < here.index then
        if k.required then none else some none
      else some (some k)
  return { s with keys }

def openFlow (s : Scanner) (t : Token) : Option Scanner := do
  let s ← s.saveKey
  return { s with flow := s.flow + 1, keys := none :: s.keys, allowed := true }.push t |>.skip 1

def closeFlow (s : Scanner) (t : Token) : Option Scanner := do
  let s ← s.dropKey
  let s := if s.inFlow then { s with flow := s.flow - 1, keys := s.keys.drop 1 } else s
  return { s with allowed := false }.push t |>.skip 1

def flowEntry (s : Scanner) : Option Scanner := do
  let s ← s.dropKey
  return { s with allowed := true }.push .flowEntry |>.skip 1

def blockEntry (s : Scanner) : Option Scanner := do
  if s.inFlow || !s.allowed then none
  else
    let s ← (s.roll s.column s.tokens.size .blockSequence).dropKey
    return { s with allowed := true }.push .blockEntry |>.skip 1

def explicitKey (s : Scanner) : Option Scanner := do
  if !s.inFlow && !s.allowed then none
  else
    let s ← (s.roll s.column s.tokens.size .blockMapping).dropKey
    return { s with allowed := !s.inFlow }.push .key |>.skip 1

def value (s : Scanner) : Option Scanner :=
  match s.keys with
  | some k :: keys =>
    let s := { s with tokens := s.tokens.insertIdxIfInBounds k.token .key, keys := none :: keys }
    let s := s.roll k.position.column k.token .blockMapping
    some ({ s with allowed := false }.push .value |>.skip 1)
  | _ =>
    if !s.inFlow && !s.allowed then none
    else
      let s := s.roll s.column s.tokens.size .blockMapping
      some ({ s with allowed := !s.inFlow }.push .value |>.skip 1)

def referenceName (s : Scanner) : Option String :=
  let rest := s.cursor.rest.drop 1
  let name := rest.takeWhile isNameChar
  let after := rest.dropWhile isNameChar
  if name.isEmpty then none
  else if atGap after || after.head?.any ['?', ':', ',', ']', '}', '%', '@', '\x60'].contains then
    some (String.ofList name)
  else none

def anchor (s : Scanner) : Option Scanner := do
  let s ← s.saveKey
  let name ← s.referenceName
  let (number, anchors) := s.anchors.define name
  return { s with allowed := false, anchors }.push (.anchor number) |>.skip (name.length + 1)

def reference (s : Scanner) : Option Scanner := do
  let s ← s.saveKey
  let name ← s.referenceName
  let number ← s.anchors.lookup name
  return { s with allowed := false }.push (.reference number) |>.skip (name.length + 1)

def tag (s : Scanner) : Option Scanner := do
  let s ← s.saveKey
  let (tag, size) ← s.handles.tag? (s.cursor.rest.drop 1)
  let after := s.cursor.rest.drop (size + 1)
  if atGap after || (s.inFlow && after.head? == some ',') then
    return { s with allowed := false }.push (.tag tag) |>.skip (size + 1)
  else none

def block (s : Scanner) (style : Style) : Option Scanner := do
  let s ← s.dropKey
  let (text, cursor) ← blockScalar style s.indent (s.skip 1).cursor
  return { s with cursor, allowed := true }.push (.scalar style text)

def quoted (s : Scanner) (double : Bool) : Option Scanner := do
  let s ← s.saveKey
  let c := (s.skip 1).cursor
  let (text, cursor) ← quotedScalar double .text {} [] c.position c.rest
  return { s with cursor, allowed := false }.push (.scalar .quoted text)

def plain (s : Scanner) : Option Scanner := do
  let s ← s.saveKey
  let (text, broken, cursor) ←
    plainScalar s.inFlow (s.indent + 1) {} [] s.cursor.position s.cursor.rest
  return { s with cursor, allowed := broken }.push (.scalar .plain text)

def document (s : Scanner) (t : Token) : Option Scanner := do
  let s ← (s.unroll (-1)).dropKey
  return { s with allowed := false }.push t |>.skip 3

def directive (s : Scanner) : Option Scanner := do
  let s ← (s.unroll (-1)).dropKey
  let line := s.cursor.rest.takeWhile fun c => !isBreak c
  let s := { s with allowed := false }.push .directive |>.skip line.length
  match ← directive? (line.drop 1) with
  | .version => if s.versioned then none else return { s with versioned := true }
  | .handle name stem =>
    if (s.handles.lookup name).isSome then none
    else return { s with handles := (name, stem) :: s.handles }

/-- The characters that start no plain scalar. -/
def indicators : List Char :=
  ['-', '?', ':', ',', '[', ']', '{', '}', '#', '&', '*', '!', '|', '>', '\'', '"', '%', '@',
    '\x60']

def startsPlain (s : Scanner) (c : Char) (rest : List Char) : Bool :=
  (!isSpace c && !indicators.contains c) || (c == '-' && !rest.head?.any isSpace)
    || (!s.inFlow && (c == '?' || c == ':') && !atGap rest)

def fetch (s : Scanner) (c : Char) (rest : List Char) : Option Scanner :=
  if s.column == 0 && c == '%' then s.directive
  else if s.column == 0 && atDocument (c :: rest) then
    s.document (if c == '-' then .documentStart else .documentEnd)
  else
    match c with
    | '[' => s.openFlow .openSequence
    | '{' => s.openFlow .openMapping
    | ']' => s.closeFlow .closeSequence
    | '}' => s.closeFlow .closeMapping
    | ',' => s.flowEntry
    | '*' => s.reference
    | '&' => s.anchor
    | '!' => s.tag
    | '\'' => s.quoted false
    | '"' => s.quoted true
    | _ =>
      if c == '-' && atGap rest then s.blockEntry
      else if c == '?' && (s.inFlow || atGap rest) then s.explicitKey
      else if c == ':' && (s.inFlow || atGap rest) then s.value
      else if c == '|' && !s.inFlow then s.block .literal
      else if c == '>' && !s.inFlow then s.block .folded
      else if s.startsPlain c rest then s.plain
      else none

/-- Scans to the end of the text, which is `size` octets long. Every token takes at least one. -/
def run (size : Nat) (s : Scanner) : Option (Array Token) := do
  let index := s.cursor.position.index
  let (allowed, cursor) :=
    skipAhead s.inFlow s.allowed false s.cursor.position s.cursor.rest
  let ready := { s with allowed, cursor }
  match cursor.rest with
  | [] =>
    let last ← (ready.unroll (-1)).dropKey
    return last.tokens
  | c :: rest =>
    let next ← ((← ready.dropStale).unroll ready.column).fetch c rest
    if _ : index < next.cursor.position.index ∧ next.cursor.position.index ≤ size then
      run size next
    else none
termination_by size - s.cursor.position.index

end Scanner

def tokens? (text : String) : Option (List Token) :=
  let cs := normalizeBreaks text.toList
  if text.toList.all isPrintable then
    (Scanner.run (Position.over {} cs).index { cursor := ⟨{}, cs⟩ }).map Array.toList
  else none

end ChoiceModel.Yaml
