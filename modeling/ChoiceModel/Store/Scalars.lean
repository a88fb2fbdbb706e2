import ChoiceModel.Store.Access

/-! Named scalars in the order in which their names were first used. -/

namespace ChoiceModel.Store

open Expression (EvalError)

structure Scalars where
  entries : Array (String × Float) := #[]

namespace Scalars

def size (t : Scalars) : Nat := t.entries.size

def indexOf? (t : Scalars) (name : String) : Option Nat :=
  t.entries.findIdx? fun entry => entry.1 == name

def name? (t : Scalars) (i : Nat) : Option String := t.entries[i]?.map Prod.fst

def value? (t : Scalars) (i : Nat) : Option Float := t.entries[i]?.map Prod.snd

def get? (t : Scalars) (name : String) : Option Float := (t.indexOf? name).bind t.value?

/-- The index of a name, which gets a new scalar with the value 0 if it has none. -/
def allocate (t : Scalars) (name : String) : Nat × Scalars :=
  match t.indexOf? name with
  | some i => (i, t)
  | none => (t.size, ⟨t.entries.push (name, 0.0)⟩)

def setAt (t : Scalars) (i : Nat) (x : Float) : Scalars :=
  ⟨t.entries.modify i fun entry => (entry.1, x)⟩

def set (t : Scalars) (name : String) (x : Float) : Nat × Scalars :=
  let (i, t) := t.allocate name
  (i, t.setAt i x)

def ofList (pairs : List (String × Float)) : Scalars :=
  pairs.foldl (fun t pair => (t.set pair.1 pair.2).2) {}

def toList (t : Scalars) : List (String × Float) := t.entries.toList

def read (t : Scalars) (i : Nat) : Except EvalError Float :=
  match t.value? i with
  | some x => .ok x
  | none => .error (.unbound i)

def readIndexed (t : Scalars) (i : Nat) : Except EvalError Float :=
  match t.name? i with
  | some name => .error (.notSubscriptable name)
  | none => .error (.unbound i)

def write (t : Scalars) (i : Nat) (x : Float) : Except EvalError Scalars :=
  if i < t.size then .ok (t.setAt i x) else .error (.unbound i)

end Scalars

instance : Resolver Scalars where
  resolveRead name t := (t.indexOf? name, t)
  resolveAssign name t :=
    let (i, t) := t.allocate name
    (some i, t)

/-- Scalars are the same in every context. -/
instance {κ : Type} : Cells Scalars κ where
  read t i _ := t.read i
  readIndexed t i _ _ := t.readIndexed i
  write t i x _ := t.write i x

end ChoiceModel.Store
