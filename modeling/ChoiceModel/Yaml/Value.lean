import ChoiceModel.Decimal.Read
import ChoiceModel.Yaml.Node

/-! What the nodes of a YAML document mean, where a number, a text, a collection or something else
is expected. -/

namespace ChoiceModel.Yaml

def isNullWord (s : String) : Bool := ["null", "Null", "NULL", "~"].contains s

def isTruthWord (s : String) : Bool :=
  ["true", "True", "TRUE", "false", "False", "FALSE"].contains s

def dropPlus : List Char → List Char
  | '+' :: rest => rest
  | cs => cs

def startsSigned (cs : List Char) : Bool := cs.head?.any fun c => c == '+' || c == '-'

/-- A floating-point number in decimal notation, which has to be finite, or one of the words for
special values. -/
def float? (cs : List Char) : Option Float :=
  let body := dropPlus cs
  if cs.head? == some '+' && startsSigned body then none
  else if [".inf", ".Inf", ".INF"].contains (String.ofList body) then some (1.0 / 0.0)
  else if ["-.inf", "-.Inf", "-.INF"].contains (String.ofList cs) then some (-1.0 / 0.0)
  else if [".nan", ".NaN", ".NAN"].contains (String.ofList cs) then some (0.0 / 0.0)
  else
    match Decimal.read body with
    | .ok x => if x.isNaN || x.isInf then none else some x
    | .error _ => none

/-- Digits with a zero in front, which make a text and no number. -/
def isPaddedNumber (cs : List Char) : Bool :=
  match if startsSigned cs then cs.drop 1 else cs with
  | '0' :: rest => !rest.isEmpty && rest.all Char.isDigit
  | _ => false

def digit? (base : Nat) (c : Char) : Option Nat := (hexDigit? c).filter (· < base)

def natural? (base : Nat) (cs : List Char) : Option Nat :=
  if cs.isEmpty then none
  else cs.foldlM (fun n c => (digit? base c).map (base * n + ·)) 0

def magnitude? (cs : List Char) : Option Nat :=
  match cs with
  | '0' :: 'x' :: rest => natural? 16 rest
  | '0' :: 'o' :: rest => natural? 8 rest
  | '0' :: 'b' :: rest => natural? 2 rest
  | cs => natural? 10 cs

def integer? (cs : List Char) : Option Int :=
  if isPaddedNumber cs then none
  else
    match cs with
    | '-' :: rest => (magnitude? rest).map fun n => -n
    | cs => (magnitude? (dropPlus cs)).map fun n => n

/-- The number that an integer of 64 bits stands for; larger integers have none. -/
def word? (n : Int) : Option Float :=
  if 0 ≤ n && n < 0x10000000000000000 then some (Float.ofNat n.toNat)
  else if n < 0 && -0x8000000000000000 ≤ n then some (-(Float.ofNat n.natAbs))
  else none

/-- Whether an integer takes more than 128 bits. -/
def isWide (n : Int) : Bool := n < -(Nat.pow 2 127 : Nat) || (Nat.pow 2 128 : Nat) ≤ n

/-- What an untagged plain scalar is where a text or a number may stand. Integers of more than 128
bits are read as floating-point numbers. -/
def plainValue? (s : String) : Option (String ⊕ Float) :=
  let cs := s.toList
  let float := if isPaddedNumber cs then none else float? cs
  if s.isEmpty || isNullWord s || isTruthWord s then none
  else
    match integer? cs with
    | some n =>
      if isWide n then some (float.elim (.inl s) .inr) else (word? n).map .inr
    | none => some (float.elim (.inl s) .inr)

def scalarValue? (style : Style) (s : String) : Option Tag → Option (String ⊕ Float)
  | none => if style == .plain then plainValue? s else some (.inl s)
  | some tag =>
    if tag.name?.isSome || tag == .standard "null" || tag == .standard "bool" then none
    else if tag == .standard "int" then ((integer? s.toList).bind word?).map .inr
    else if tag == .standard "float" then (float? s.toList).map .inr
    else if tag.isLocal && style == .plain then plainValue? s
    else some (.inl s)

/-- A node with the anchored nodes of its document, the last one first. -/
structure Value where
  anchored : List (Nat × Node)
  node : Node

/-- A reading that may follow some more aliases. -/
abbrev Reading := StateT Nat Option

namespace Value

/-- The value itself, or the last one that has the anchor of an alias. -/
def target (v : Value) : Reading Value :=
  match v.node with
  | .reference a => fun left =>
    if left == 0 then none
    else (v.anchored.lookup a).map fun node => ({ v with node }, left - 1)
  | _ => pure v

def string (v : Value) : Reading String := do
  match (← v.target).node with
  | .scalar _ _ s => pure s
  | _ => failure

def number (v : Value) : Reading Float := do
  match (← v.target).node with
  | .scalar p style s =>
    if style == .plain || (style == .literal && p.tag == some (.standard "float")) then
      (float? s.toList).elim failure pure
    else failure
  | _ => failure

def textOrNumber (v : Value) : Reading (String ⊕ Float) := do
  match (← v.target).node with
  | .scalar p style s => (scalarValue? style s p.tag).elim failure pure
  | _ => failure

/-- The name of a choice: a local tag in front of nothing, or a scalar. -/
def choice (v : Value) : Reading String := do
  match (← v.target).node with
  | .scalar p style s =>
    match p.tag.bind Tag.name? with
    | some name =>
      if style == .plain && (s.isEmpty || isNullWord s) then pure name else failure
    | none => pure s
  | _ => failure

/-- The value, unless it is a plain scalar without text or with a word for nothing. -/
def nonNull (v : Value) : Reading (Option Value) := do
  let v ← v.target
  match v.node with
  | .scalar p .plain s =>
    match p.tag with
    | none => if s.isEmpty || isNullWord s then pure none else pure (some v)
    | some tag =>
      if tag != .standard "null" then pure (some v)
      else if isNullWord s then pure none
      else failure
  | _ => pure (some v)

/-- A collection may be left empty. -/
def isBlank (v : Value) : Bool :=
  match v.node with
  | .scalar _ .plain s => s.isEmpty
  | _ => false

def items (v : Value) : Reading (List Value) := do
  let v ← v.target
  match v.node with
  | .sequence _ items => pure (items.map ({ v with node := · }))
  | _ => if v.isBlank then pure [] else failure

def pairs (v : Value) : Reading (List (String × Value)) := do
  let v ← v.target
  match v.node with
  | .mapping _ pairs =>
    pairs.mapM fun (key, value) => do
      return (← string { v with node := key }, { v with node := value })
  | _ => if v.isBlank then pure [] else failure

end Value

/-- Reads the document in a text. Aliases may be followed a hundred times for each mark of it, so
that no text stands for a document that is too large. -/
def read? {α : Type} (read : Value → Reading α) (text : String) : Option α := do
  let root ← document? text
  let marks := root.nodes.foldl (fun n node => n + node.marks) 0
  (read ⟨root.anchored, root⟩).run' (100 * marks)

end ChoiceModel.Yaml
