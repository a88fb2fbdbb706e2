import ChoiceModel.Yaml.Cursor

/-! Scalars of a YAML text: plain ones, quoted ones and blocks. Line breaks inside of a scalar are
folded unless it is literal. -/

namespace ChoiceModel.Yaml

inductive Style where
  | plain
  | quoted
  | literal
  | folded
deriving DecidableEq

/-- What lies between two characters of a scalar: spaces, or a first line break and more of them.
The first one is missing if it was escaped. -/
structure Gap where
  spaces : List Char := []
  broken : Bool := false
  first : Option Char := none
  more : List Char := []

namespace Gap

def addSpace (g : Gap) (c : Char) : Gap :=
  if g.broken then g else { g with spaces := c :: g.spaces }

def addBreak (g : Gap) (c : Char) : Gap :=
  if g.broken then { g with more := c :: g.more } else { broken := true, first := some c }

/-- A reversed text with the gap after it: a single line break becomes a space, and of several the
first one is left out. -/
def join (g : Gap) (text : List Char) : List Char :=
  if g.broken then
    match g.first with
    | some '\n' => if g.more.isEmpty then ' ' :: text else g.more ++ text
    | some c => g.more ++ c :: text
    | none => g.more ++ text
  else g.spaces ++ text

end Gap

/-- The rest of a plain scalar, whose lines have to be indented by `indent`; with whether it ended
behind a line break. -/
def plainScalar (flow : Bool) (indent : Int) (gap : Gap) (text : List Char) (p : Position) :
    List Char → Option (String × Bool × Cursor)
  | [] => some (String.ofList text.reverse, gap.broken, ⟨p, []⟩)
  | c :: rest =>
    let stop := some (String.ofList text.reverse, gap.broken, ⟨p, c :: rest⟩)
    if isSpace c then
      if gap.broken && p.column < indent && c == '\t' then none
      else plainScalar flow indent (gap.addSpace c) text (p.next c) rest
    else if isBreak c then plainScalar flow indent (gap.addBreak c) text (p.next c) rest
    else if gap.broken && !flow && p.column < indent then stop
    else if p.column == 0 && atDocument (c :: rest) then stop
    else if c == '#' && (gap.broken || !gap.spaces.isEmpty) then stop
    else if flow && c == ':' && rest.head?.any [',', '?', '[', ']', '{', '}'].contains then none
    else if c == ':' && atGap rest then stop
    else if flow && [',', '[', ']', '{', '}'].contains c then stop
    else plainScalar flow indent {} (c :: gap.join text) (p.next c) rest

def escape? : Char → Option Char
  | '0' => some '\x00'
  | 'a' => some '\x07'
  | 'b' => some '\x08'
  | 't' => some '\t'
  | '\t' => some '\t'
  | 'n' => some '\n'
  | 'v' => some '\x0b'
  | 'f' => some '\x0c'
  | 'r' => some '\x0d'
  | 'e' => some '\x1b'
  | ' ' => some ' '
  | '"' => some '"'
  | '/' => some '/'
  | '\\' => some '\\'
  | 'N' => some '\u0085'
  | '_' => some '\u00a0'
  | 'L' => some '\u2028'
  | 'P' => some '\u2029'
  | _ => none

def hexLength? : Char → Option Nat
  | 'x' => some 2
  | 'u' => some 4
  | 'U' => some 8
  | _ => none

def codePoint? (n : Nat) : Option Char := if n.isValidChar then some (Char.ofNat n) else none

/-- Where a quoted scalar is read: between escapes, after a backslash or a single quote, or inside
an escape with some digits left. -/
inductive Quoting where
  | text
  | escape
  | quote
  | hex (left value : Nat)

def quotedScalar (double : Bool) (mode : Quoting) (gap : Gap) (text : List Char) (p : Position) :
    List Char → Option (String × Cursor)
  | [] =>
    match mode with
    | .quote => some (String.ofList text.reverse, ⟨p, []⟩)
    | _ => none
  | c :: rest =>
    match mode with
    | .quote =>
      if c == '\'' then quotedScalar double .text {} (c :: text) (p.next c) rest
      else some (String.ofList text.reverse, ⟨p, c :: rest⟩)
    | .escape =>
      if isBreak c then quotedScalar double .text { broken := true } text (p.next c) rest
      else
        match hexLength? c, escape? c with
        | some n, _ => quotedScalar double (.hex n 0) {} text (p.next c) rest
        | none, some e => quotedScalar double .text {} (e :: text) (p.next c) rest
        | none, none => none
    | .hex left value =>
      match hexDigit? c with
      | none => none
      | some d =>
        let value := 16 * value + d
        if left == 1 then
          match codePoint? value with
          | none => none
          | some e => quotedScalar double .text {} (e :: text) (p.next c) rest
        else quotedScalar double (.hex (left - 1) value) {} text (p.next c) rest
    | .text =>
      if isSpace c then quotedScalar double .text (gap.addSpace c) text (p.next c) rest
      else if isBreak c then quotedScalar double .text (gap.addBreak c) text (p.next c) rest
      else if p.column == 0 && atDocument (c :: rest) then none
      else
        let text := gap.join text
        if c == '"' && double then some (String.ofList text.reverse, ⟨p.next c, rest⟩)
        else if c == '\'' && !double then quotedScalar double .quote {} text (p.next c) rest
        else if c == '\\' && double then quotedScalar double .escape {} text (p.next c) rest
        else quotedScalar double .text {} (c :: text) (p.next c) rest

/-- What is done with the line breaks at the end of a block scalar. -/
inductive Chomping where
  | strip
  | clip
  | keep
deriving DecidableEq

/-- The indicators after `|` or `>`, of which each may stand once. -/
def blockHeader (chomping : Option Chomping) (indent : Option Nat) (p : Position) :
    List Char → Option (Chomping × Option Nat × Cursor)
  | [] => some (chomping.getD .clip, indent, ⟨p, []⟩)
  | c :: rest =>
    if (c == '+' || c == '-') && chomping.isNone then
      blockHeader (some (if c == '+' then .keep else .strip)) indent (p.next c) rest
    else if c.isDigit && indent.isNone then
      if c == '0' then none
      else blockHeader chomping (some (c.toNat - '0'.toNat)) (p.next c) rest
    else some (chomping.getD .clip, indent, ⟨p, c :: rest⟩)

def headerEnd (comment : Bool) (p : Position) : List Char → Option Cursor
  | [] => some ⟨p, []⟩
  | c :: rest =>
    if isBreak c then some ⟨p.next c, rest⟩
    else if comment || c == '#' then headerEnd true (p.next c) rest
    else if isSpace c then headerEnd false (p.next c) rest
    else none

/-- Skips indentation and empty lines: the widest indentation seen, the line breaks in reverse, and
where the next line begins. An `indent` of 0 is not known yet. -/
def emptyLines (indent widest : Nat) (breaks : List Char) (p : Position) :
    List Char → Option (Nat × List Char × Cursor)
  | [] => some (max widest p.column, breaks, ⟨p, []⟩)
  | c :: rest =>
    let free := indent == 0 || p.column < indent
    if c == ' ' && free then emptyLines indent widest breaks (p.next c) rest
    else if c == '\t' && free then none
    else if isBreak c then emptyLines indent (max widest p.column) (c :: breaks) (p.next c) rest
    else some (max widest p.column, breaks, ⟨p, c :: rest⟩)

theorem emptyLines_length {indent widest : Nat} {breaks cs : List Char} {p : Position}
    {r : Nat × List Char × Cursor} (h : emptyLines indent widest breaks p cs = some r) :
    r.2.2.rest.length ≤ cs.length := by
  fun_induction emptyLines indent widest breaks p cs with
  | case1 => cases h; simp
  | case2 _ _ _ _ _ _ _ ih => have := ih h; simp; omega
  | case3 => cases h
  | case4 _ _ _ _ _ _ _ _ _ ih => have := ih h; simp; omega
  | case5 => cases h; simp

/-- The lines of a block scalar after `text`, which ends in the line break `last` and the empty
lines `breaks`; `indented` tells whether its last line starts with a space. -/
def blockLines (style : Style) (chomping : Chomping) (indent : Nat) (text last breaks : List Char)
    (indented : Bool) (c : Cursor) : Option (String × Cursor) :=
  match c.rest with
  | [] => some (result text last breaks, c)
  | d :: _ =>
    if c.position.column == indent then
      let space := isSpace d
      let joined :=
        if style == .folded && last == ['\n'] && !indented && !space then
          if breaks.isEmpty then ' ' :: text else breaks ++ text
        else breaks ++ last ++ text
      let line := c.rest.takeWhile fun x => !isBreak x
      let p := c.position.over line
      let text := line.reverse ++ joined
      match _ : c.rest.dropWhile fun x => !isBreak x with
      | [] => some (result text [] [], ⟨p, []⟩)
      | b :: after =>
        match _ : emptyLines indent 0 [] (p.next b) after with
        | none => none
        | some (_, breaks, next) =>
          blockLines style chomping indent text [b] breaks space next
    else some (result text last breaks, c)
termination_by c.rest.length
decreasing_by
  have split := congrArg List.length (List.takeWhile_append_dropWhile
    (p := fun x => !isBreak x) (l := c.rest))
  have shorter := emptyLines_length ‹_›
  simp_all
  omega
where
  result (text last breaks : List Char) : String :=
    let reversed := match chomping with
      | .strip => text
      | .clip => last ++ text
      | .keep => breaks ++ last ++ text
    String.ofList reversed.reverse

/-- A block scalar from behind its `|` or `>`, in a block indented by `parent`. -/
def blockScalar (style : Style) (parent : Int) (c : Cursor) : Option (String × Cursor) := do
  let (chomping, increment, c) ← blockHeader none none c.position c.rest
  let c ← headerEnd false c.position c.rest
  let known := increment.elim 0 fun n => (max parent 0).toNat + n
  let (widest, breaks, c) ← emptyLines known 0 [] c.position c.rest
  let indent := if known == 0 then max widest (max (parent + 1) 1).toNat else known
  blockLines style chomping indent [] [] breaks false c

end ChoiceModel.Yaml
