import ChoiceModel.Store.Attributes
import ChoiceModel.Store.Binding
import ChoiceModel.Store.DataTable
import ChoiceModel.Store.Scalars

/-! All data sources of a model behind one table of bindings. A name is looked up among loop
variables, attributes, scalars, zone columns, household columns, alternative columns and matrices,
in this order; groups of matrices come first as the first argument of a lookup. -/

namespace ChoiceModel.Store

open Expression (EvalError)

structure Variables (ο : Type) where
  scalars : Scalars := {}
  zones : DataTable := {}
  households : DataTable := {}
  alternatives : DataTable := {}
  matrices : Matrices := {}
  attributes : Attributes ο := {}
  /-- Every binding handed out so far. A name has at most one as a group and one as a value. -/
  bindings : Array Binding := #[]

namespace Variables

variable {ο : Type}

/-- The column of a zone table that a name means, and the end of the trip. -/
def zoneColumn (name : String) : String × Place :=
  match "orig.".toList.isPrefixOf? name.toList, "dest.".toList.isPrefixOf? name.toList with
  | some rest, _ => (String.ofList rest, .origin)
  | none, some rest => (String.ofList rest, .destination)
  | none, none => (name, .origin)

def matrixSource? (v : Variables ο) (name : String) : Option Source :=
  match v.matrices.indexOf? name, v.matrices.entry? name with
  | some i, some entry =>
    match entry.content with
    | .matrix _ => some (.matrix i entry.orientation)
    | .member _ number _ => some (.member i entry.orientation number)
    | .array _ => some (.array i entry.orientation)
    | .collection _ => some (.collection i entry.orientation)
  | _, _ => none

def source? (v : Variables ο) (name : String) : Option Source :=
  match name.toList with
  | '$' :: _ => (LoopVariable.ofName? name).map .loop
  | '@' :: '@' :: rest => (v.attributes.indexOf? (String.ofList rest)).map (.attribute · true)
  | '@' :: rest => (v.attributes.indexOf? (String.ofList rest)).map (.attribute · false)
  | _ =>
    let (column, place) := zoneColumn name
    (v.scalars.indexOf? name).map .scalar
      <|> (v.zones.indexOf? column).map (.zone · place)
      <|> (v.households.indexOf? name).map .household
      <|> (v.alternatives.indexOf? name).map .alternative
      <|> (v.matrixSource? name).filter fun s => !s.isGroup

/-- The index of the binding that a name has, as a group of matrices or as a value. -/
def bindingOf? (v : Variables ο) (name : String) (group : Bool) : Option Nat :=
  v.bindings.findIdx? fun b => b.name == name && b.source.isGroup == group

def bind (v : Variables ο) (b : Binding) : Option Nat × Variables ο :=
  (some v.bindings.size, { v with bindings := v.bindings.push b })

def resolveRead (name : String) (v : Variables ο) : Option Nat × Variables ο :=
  match v.bindingOf? name false with
  | some i => (some i, v)
  | none =>
    match v.source? name with
    | some source => v.bind ⟨name, source⟩
    | none => (none, v)

def resolveArray (name : String) (v : Variables ο) : Option Nat × Variables ο :=
  match v.bindingOf? name true with
  | some i => (some i, v)
  | none =>
    match (v.matrixSource? name).filter Source.isGroup with
    | some source => v.bind ⟨name, source⟩
    | none => resolveRead name v

/-- Whether a new scalar may get the name: it names no other kind of source. -/
def isFree (v : Variables ο) (name : String) : Bool :=
  let cs := name.toList
  !(cs.head?.any fun c => c == '$' || c == '@') && !cs.contains '.'
    && (v.matrices.indexOf? name).isNone

/-- The target of an assignment: what can be written under the name, or else a new scalar. -/
def resolveAssign (name : String) (v : Variables ο) : Option Nat × Variables ο :=
  match resolveRead name v with
  | (some i, v) => (if v.bindings[i]?.any fun b => b.source.isWritable then some i else none, v)
  | (none, v) =>
    if v.isFree name then
      let (slot, scalars) := v.scalars.allocate name
      { v with scalars }.bind ⟨name, .scalar slot⟩
    else (none, v)

/-- The row of a zone table for one end of the trip. -/
def zoneRow (name : String) (place : Place) (ctx : Context ο) : Except EvalError Nat :=
  let zone := match place with
    | .origin => (ctx.origin, Expression.Need.origin)
    | .destination => (ctx.destination, .destination)
  match zone with
  | (none, need) => .error (.missing name need)
  | (some 0, _) => .error (.cell name .zoneZero)
  | (some (row + 1), _) => .ok row

def householdRow (name : String) (ctx : Context ο) : Except EvalError Nat :=
  match ctx.household with
  | some row => .ok row
  | none => .error (.missing name .household)

def alternativeRow (name : String) (ctx : Context ο) : Except EvalError Nat :=
  match ctx.alternative with
  | 0 => .error (.missing name .alternative)
  | row + 1 => .ok row

def trip (name : String) (ctx : Context ο) : Except EvalError (Nat × Nat) :=
  match ctx.origin, ctx.destination with
  | some origin, some destination => .ok (origin, destination)
  | _, _ => .error (.missing name .trip)

def loopValue? (ctx : Context ο) : LoopVariable → Option Nat
  | .origin => ctx.origin
  | .destination => ctx.destination
  | .alternative => some ctx.alternative
  | .household => ctx.household

def read (v : Variables ο) (i : Nat) (ctx : Context ο) : Except EvalError Float := do
  match v.bindings[i]? with
  | none => .error (.unbound i)
  | some ⟨name, source⟩ =>
    match source with
    | .scalar slot => v.scalars.read slot
    | .zone column place => v.zones.read column (← zoneRow name place ctx)
    | .household column => v.households.read column (← householdRow name ctx)
    | .alternative column => v.alternatives.read column (← alternativeRow name ctx)
    | .matrix entry _ | .member entry _ _ | .array entry _ | .collection entry _ =>
      v.matrices.read entry (← trip name ctx)
    | .attribute slot fixed =>
      match ctx.decisionMaker with
      | none => .error (.missing name .decisionMaker)
      | some person =>
        match v.attributes.call? slot person (if fixed then 0 else ctx.alternative) with
        | some x => .ok x
        | none => .error (.unbound i)
    | .loop l =>
      match loopValue? ctx l with
      | some n => .ok (Float.ofNat n)
      | none => .error (.missing name .loopValue)

def readIndexed (v : Variables ο) (i : Nat) (subscript : Float) (ctx : Context ο) :
    Except EvalError Float := do
  match v.bindings[i]? with
  | none => .error (.unbound i)
  | some ⟨name, source⟩ =>
    match source with
    | .matrix entry _ | .member entry _ _ | .array entry _ | .collection entry _ =>
      v.matrices.readIndexed entry subscript (← trip name ctx)
    | _ => .error (.notSubscriptable name)

def write (v : Variables ο) (i : Nat) (x : Float) (ctx : Context ο) :
    Except EvalError (Variables ο) := do
  match v.bindings[i]? with
  | none => .error (.unbound i)
  | some ⟨name, source⟩ =>
    match source with
    | .scalar slot => return { v with scalars := ← v.scalars.write slot x }
    | .zone column place =>
      return { v with zones := ← v.zones.write column (← zoneRow name place ctx) x }
    | .household column =>
      return { v with households := ← v.households.write column (← householdRow name ctx) x }
    | .alternative column =>
      return { v with alternatives := ← v.alternatives.write column (← alternativeRow name ctx) x }
    | _ => .error (.readOnly name)

end Variables

instance {ο : Type} : Resolver (Variables ο) where
  resolveRead := Variables.resolveRead
  resolveArray := Variables.resolveArray
  resolveAssign := Variables.resolveAssign

instance {ο : Type} : Cells (Variables ο) (Context ο) where
  read := Variables.read
  readIndexed := Variables.readIndexed
  write := Variables.write

end ChoiceModel.Store
