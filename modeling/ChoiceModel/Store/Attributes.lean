/-! Named attributes of a decision-maker, each of which may depend on the alternative. -/

namespace ChoiceModel.Store

/-- How an attribute is read off a decision-maker of type `ο` for an alternative. -/
abbrev Accessor (ο : Type) := ο → Nat → Float

structure Attributes (ο : Type) where
  entries : Array (String × Accessor ο) := #[]

namespace Attributes

variable {ο : Type}

def indexOf? (t : Attributes ο) (name : String) : Option Nat :=
  t.entries.findIdx? fun entry => entry.1 == name

def register (t : Attributes ο) (name : String) (f : Accessor ο) : Nat × Attributes ο :=
  match t.indexOf? name with
  | some i => (i, ⟨t.entries.modify i fun entry => (entry.1, f)⟩)
  | none => (t.entries.size, ⟨t.entries.push (name, f)⟩)

def call? (t : Attributes ο) (i : Nat) (person : ο) (alternative : Nat) : Option Float :=
  t.entries[i]?.map fun entry => entry.2 person alternative

def names (t : Attributes ο) : List String := t.entries.toList.map Prod.fst

end Attributes

end ChoiceModel.Store
