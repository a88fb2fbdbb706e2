import ChoiceModel.Yaml.Token

/-! YAML documents as trees. An alias is a leaf with the number of an anchor. -/

namespace ChoiceModel.Yaml

structure Properties where
  anchor : Option Nat := none
  tag : Option Tag := none

inductive Node where
  | scalar (properties : Properties) (style : Style) (text : String)
  | sequence (properties : Properties) (items : List Node)
  | mapping (properties : Properties) (pairs : List (Node × Node))
  | reference (anchor : Nat)

namespace Node

/-- What a missing node stands for. -/
def empty : Node := .scalar {} .plain ""

def anchor? : Node → Option Nat
  | scalar p _ _ => p.anchor
  | sequence p _ => p.anchor
  | mapping p _ => p.anchor
  | reference _ => none

/-- Collections have a start and an end, and other nodes are a mark of their own. -/
def marks : Node → Nat
  | sequence _ _ => 2
  | mapping _ _ => 2
  | _ => 1

mutual

def nodes : Node → List Node
  | sequence p items => sequence p items :: itemNodes items
  | mapping p pairs => mapping p pairs :: pairNodes pairs
  | n => [n]

def itemNodes : List Node → List Node
  | [] => []
  | n :: rest => nodes n ++ itemNodes rest

def pairNodes : List (Node × Node) → List Node
  | [] => []
  | (key, value) :: rest => nodes key ++ nodes value ++ pairNodes rest

end

def anchored (n : Node) : List (Nat × Node) :=
  (n.nodes.filterMap fun n => n.anchor?.map (·, n)).reverse

end Node

/-- An anchor and a tag, in either order, in front of a node. -/
def properties : List Token → Properties × List Token
  | .anchor a :: .tag t :: rest => (⟨some a, some t⟩, rest)
  | .tag t :: .anchor a :: rest => (⟨some a, some t⟩, rest)
  | .anchor a :: rest => (⟨some a, none⟩, rest)
  | .tag t :: rest => (⟨none, some t⟩, rest)
  | tokens => ({}, tokens)

theorem properties_length (tokens : List Token) :
    (properties tokens).2.length ≤ tokens.length := by
  unfold properties
  split <;> simp <;> omega

/-- The tokens that a node of a collection may not start with: where one of them stands, the node is
empty. -/
structure Ends where
  tokens : List Token

def Ends.hold (e : Ends) : List Token → Bool
  | t :: _ => e.tokens.contains t
  | [] => false

def entryEnds : Ends := ⟨[.blockEntry, .blockEnd]⟩

def looseEntryEnds : Ends := ⟨[.blockEntry, .key, .value, .blockEnd]⟩

def pairEnds : Ends := ⟨[.key, .value, .blockEnd]⟩

def flowKeyEnds (close : Token) : Ends := ⟨[.value, .flowEntry, close]⟩

def flowValueEnds (close : Token) : Ends := ⟨[.flowEntry, close]⟩

/-- What has been read off the front of a list of tokens, with the rest of at most `bound`. -/
structure Parsed (α : Type) (bound : Nat) where
  result : α
  rest : List Token
  rest_le : rest.length ≤ bound

namespace Parsed

variable {α β : Type} {m n : Nat}

def map (f : α → β) (p : Parsed α n) : Parsed β n := ⟨f p.result, p.rest, p.rest_le⟩

def widen (h : m ≤ n) (p : Parsed α m) : Parsed α n := ⟨p.result, p.rest, Nat.le_trans p.rest_le h⟩

end Parsed

def Properties.empty? (p : Properties) (tokens : List Token) :
    Option (Parsed Node tokens.length) :=
  if p.anchor.isSome || p.tag.isSome then some ⟨.scalar p .plain "", tokens, Nat.le_refl _⟩
  else none

mutual

/-- A node. Block collections are read where `block` allows them, and a sequence without an
indentation of its own where `indentless` does. -/
def node (block indentless : Bool) (tokens : List Token) : Option (Parsed Node tokens.length) :=
  match tokens with
  | .reference a :: rest => some ⟨.reference a, rest, by simp⟩
  | tokens =>
    have : (properties tokens).2.length ≤ tokens.length := properties_length tokens
    (content block indentless (properties tokens).1 (properties tokens).2).map (·.widen this)
termination_by (tokens.length, 2)
decreasing_by
  simp only [Prod.lex_def]
  omega

def content (block indentless : Bool) (p : Properties) (tokens : List Token) :
    Option (Parsed Node tokens.length) :=
  match tokens with
  | .scalar style text :: rest => some ⟨.scalar p style text, rest, by simp⟩
  | .openSequence :: rest => (flowItems [] (.openSequence :: rest)).map (·.map (.sequence p))
  | .openMapping :: rest => (flowPairs [] (.openMapping :: rest)).map (·.map (.mapping p))
  | .blockEntry :: rest =>
    if indentless then (items false [] (.blockEntry :: rest)).map (·.map (.sequence p))
    else p.empty? (.blockEntry :: rest)
  | .blockSequence :: rest =>
    if block then (items true [] rest).map fun n => (n.map (.sequence p)).widen (by simp)
    else p.empty? (.blockSequence :: rest)
  | .blockMapping :: rest =>
    if block then (pairs [] rest).map fun n => (n.map (.mapping p)).widen (by simp)
    else p.empty? (.blockMapping :: rest)
  | tokens => p.empty? tokens
termination_by (tokens.length, 1)
decreasing_by all_goals simp [Prod.lex_def]

/-- A node, or an empty one in front of a token that ends it. -/
def part (ends : Ends) (block indentless : Bool) (tokens : List Token) :
    Option (Parsed Node tokens.length) :=
  if ends.hold tokens then some ⟨.empty, tokens, Nat.le_refl _⟩ else node block indentless tokens
termination_by (tokens.length, 3)

def pairValue (ends : Ends) (block : Bool) (tokens : List Token) :
    Option (Parsed Node tokens.length) :=
  match tokens with
  | .value :: rest => (part ends block block rest).map (·.widen (by simp))
  | tokens => some ⟨.empty, tokens, Nat.le_refl _⟩
termination_by (tokens.length, 4)

/-- The items of a block sequence, which has an end of its own if it is `closed`. -/
def items (closed : Bool) (done : List Node) (tokens : List Token) :
    Option (Parsed (List Node) tokens.length) :=
  match tokens with
  | .blockEntry :: rest =>
    match part (if closed then entryEnds else looseEntryEnds) true false rest with
    | none => none
    | some item =>
      have := item.rest_le
      (items closed (item.result :: done) item.rest).map (·.widen (by simp; omega))
  | .blockEnd :: rest =>
    if closed then some ⟨done.reverse, rest, by simp⟩
    else some ⟨done.reverse, .blockEnd :: rest, Nat.le_refl _⟩
  | tokens => if closed then none else some ⟨done.reverse, tokens, Nat.le_refl _⟩
termination_by (tokens.length, 0)
decreasing_by all_goals simp [Prod.lex_def]; try omega

def pairs (done : List (Node × Node)) (tokens : List Token) :
    Option (Parsed (List (Node × Node)) tokens.length) :=
  match tokens with
  | .key :: rest =>
    match part pairEnds true true rest with
    | none => none
    | some key =>
      have := key.rest_le
      match pairValue pairEnds true key.rest with
      | none => none
      | some value =>
        have := value.rest_le
        (pairs ((key.result, value.result) :: done) value.rest).map (·.widen (by simp; omega))
  | .blockEnd :: rest => some ⟨done.reverse, rest, by simp⟩
  | _ => none
termination_by (tokens.length, 0)
decreasing_by all_goals simp [Prod.lex_def]; try omega

/-- An item of a flow sequence. One with a key is a mapping of one pair; a token that leaves this
key empty is used up by it. -/
def flowItem (tokens : List Token) : Option (Parsed Node tokens.length) :=
  match tokens with
  | .key :: rest =>
    let key : Option (Parsed Node rest.length) :=
      if (flowKeyEnds .closeSequence).hold rest then some ⟨.empty, rest.drop 1, by simp⟩
      else node false false rest
    match key with
    | none => none
    | some key =>
      have := key.rest_le
      (pairValue (flowValueEnds .closeSequence) false key.rest).map fun value =>
        (value.map fun v => .mapping {} [(key.result, v)]).widen (by simp; omega)
  | tokens => node false false tokens
termination_by (tokens.length, 5)
decreasing_by all_goals simp [Prod.lex_def]; try omega

/-- A pair of a flow mapping. A node without a key token is a key with an empty value. -/
def flowPair (tokens : List Token) : Option (Parsed (Node × Node) tokens.length) :=
  match tokens with
  | .key :: rest =>
    match part (flowKeyEnds .closeMapping) false false rest with
    | none => none
    | some key =>
      have := key.rest_le
      (pairValue (flowValueEnds .closeMapping) false key.rest).map fun value =>
        (value.map fun v => (key.result, v)).widen (by simp; omega)
  | tokens => (node false false tokens).map (·.map fun key => (key, .empty))
termination_by (tokens.length, 5)
decreasing_by all_goals simp [Prod.lex_def]; try omega

/-- The items of a flow sequence from a separator, its bracket or a comma, up to its end. -/
def flowItems (done : List Node) (tokens : List Token) :
    Option (Parsed (List Node) tokens.length) :=
  match tokens with
  | [] => none
  | _ :: .closeSequence :: rest => some ⟨done.reverse, rest, by simp; omega⟩
  | _ :: rest =>
    match flowItem rest with
    | none => none
    | some ⟨item, .closeSequence :: after, le⟩ =>
      some ⟨(item :: done).reverse, after, by simp at le ⊢; omega⟩
    | some ⟨item, .flowEntry :: after, le⟩ =>
      (flowItems (item :: done) (.flowEntry :: after)).map (·.widen (by simp at le ⊢; omega))
    | some _ => none
termination_by (tokens.length, 0)
decreasing_by all_goals simp [Prod.lex_def] at *; try omega

/-- The pairs of a flow mapping from a separator, its brace or a comma, up to its end. -/
def flowPairs (done : List (Node × Node)) (tokens : List Token) :
    Option (Parsed (List (Node × Node)) tokens.length) :=
  match tokens with
  | [] => none
  | _ :: .closeMapping :: rest => some ⟨done.reverse, rest, by simp; omega⟩
  | _ :: rest =>
    match flowPair rest with
    | none => none
    | some ⟨pair, .closeMapping :: after, le⟩ =>
      some ⟨(pair :: done).reverse, after, by simp at le ⊢; omega⟩
    | some ⟨pair, .flowEntry :: after, le⟩ =>
      (flowPairs (pair :: done) (.flowEntry :: after)).map (·.widen (by simp at le ⊢; omega))
    | some _ => none
termination_by (tokens.length, 0)
decreasing_by all_goals simp [Prod.lex_def] at *; try omega

end

/-- What stands between the marks of a document; nothing is an empty node. -/
def documentBody : List Token → Option (Node × List Token)
  | [] => some (.empty, [])
  | .documentEnd :: rest => some (.empty, .documentEnd :: rest)
  | tokens => (node true false tokens).map fun n => (n.result, n.rest)

/-- The document that a text holds, at most one; a text without any is an empty node. -/
def document? (text : String) : Option Node := do
  let tokens ← tokens? text
  let (root, rest) ← match tokens.dropWhile (· == .directive), tokens.head? with
    | .documentStart :: rest, _ => documentBody rest
    | _, some .directive => none
    | _, some .documentEnd => none
    | rest, _ => documentBody rest
  if rest.all (· == .documentEnd) then return root else none

end ChoiceModel.Yaml
