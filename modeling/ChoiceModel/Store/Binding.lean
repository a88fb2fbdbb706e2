import ChoiceModel.Store.Matrices

/-! What a name of an expression stands for, and where an evaluation takes place. -/

namespace ChoiceModel.Store

inductive LoopVariable where
  | origin
  | destination
  | alternative
  | household
deriving DecidableEq

namespace LoopVariable

def name : LoopVariable → String
  | origin => "$orig"
  | destination => "$dest"
  | alternative => "$alt"
  | household => "$hh"

def all : List LoopVariable := [origin, destination, alternative, household]

def ofName? (s : String) : Option LoopVariable := all.find? fun v => v.name == s

end LoopVariable

inductive Place where
  | origin
  | destination
deriving DecidableEq

/-- Where the values of a name come from; the numbers are indices in the data source. -/
inductive Source where
  | scalar (slot : Nat)
  | zone (column : Nat) (place : Place)
  | household (column : Nat)
  | alternative (column : Nat)
  | matrix (entry : Nat) (orientation : Orientation)
  | member (entry : Nat) (orientation : Orientation) (number : Nat)
  | array (entry : Nat) (orientation : Orientation)
  | collection (entry : Nat) (orientation : Orientation)
  /-- An attribute of the decision-maker, for the alternative 0 if it is fixed. -/
  | attribute (slot : Nat) (fixed : Bool)
  | loop (v : LoopVariable)
deriving DecidableEq

/-- Whether a source is a group of matrices, which only a lookup can read. -/
def Source.isGroup : Source → Bool
  | array .. | collection .. => true
  | _ => false

def Source.isWritable : Source → Bool
  | scalar _ | zone .. | household _ | alternative _ => true
  | _ => false

structure Binding where
  name : String
  source : Source
deriving DecidableEq

/-- Where an evaluation takes place: zones are counted from 1, households from 0, and alternatives
from 1 with 0 for none. -/
structure Context (ο : Type) where
  origin : Option Nat := none
  destination : Option Nat := none
  household : Option Nat := none
  alternative : Nat := 0
  decisionMaker : Option ο := none

end ChoiceModel.Store
