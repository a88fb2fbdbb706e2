import ChoiceModel.Proofs.Store.Allocation
import ChoiceModel.Proofs.Store.Operations

/-! Variables with a map from what has been resolved, a name as a group of matrices or as a value, to the
index of its binding. A name is looked up in the map and never searched for among the bindings, and yet
everything that can be done with variables does the same with the map as without it. -/

namespace ChoiceModel

open Expression

variable {ο : Type}

namespace Store

structure KeyedVariables (ο : Type) extends Variables ο where
  resolved : Std.HashMap (String × Bool) Nat := ∅
  agrees : ∀ name group, resolved[(name, group)]? = toVariables.bindingOf? name group

/-- Whether an operation looks names of expressions up. -/
def Operation.resolves : Operation ο → Bool
  | .resolveRead _ | .resolveArray _ | .resolveAssign _ | .compile _ | .compileUtility _ => true
  | .solve .. | .write .. | .solveUtility .. | .traceUtility .. | .setScalar .. | .addZoneColumn ..
  | .addHouseholdColumn .. | .addAlternativeColumn .. | .addMatrix .. | .addArray ..
  | .addCollection .. | .register .. => false

namespace Variables

variable {v : Variables ο} {operation : Operation ο}

theorem bindingOf?_bind (v : Variables ο) (b : Binding) (name : String) (group : Bool) :
    (v.bind b).2.bindingOf? name group = (v.bindingOf? name group).or
      (if b.name == name && b.source.isGroup == group then some v.bindings.size else none) :=
  Array.findIdx?_push

/-- Bindings are handed out by resolutions alone. -/
theorem bindings_perform (v : Variables ο) (h : operation.resolves = false) :
    (v.perform operation).bindings = v.bindings := by
  cases operation with
  | solve e ctx => exact (e.solveSeen_written written_sameNames .silent v ctx ()).bindings
  | write i x ctx =>
    rw [perform]
    split
    · rename_i hwrite
      exact (write_sameNames hwrite).bindings
    · rfl
  | solveUtility u ctx => exact (u.solveSeen_written written_sameNames .silent v ctx ()).bindings
  | traceUtility u ctx alternative =>
    exact (u.traceSeen_written written_sameNames .silent v ctx alternative ()).bindings
  | setScalar name x => rfl
  | addZoneColumn name values => rfl
  | addHouseholdColumn name values => rfl
  | addAlternativeColumn name values => rfl
  | addMatrix m orientation => rfl
  | addArray name members orientation => rfl
  | addCollection name members orientation => rfl
  | register name f => rfl
  | _ => cases h

end Variables

namespace KeyedVariables

variable {k k' : KeyedVariables ο} {name : String} {group : Bool} {source : Source}

/-- Variables with no bindings, and with nothing in the map. -/
def unresolved (v : Variables ο) (h : v.bindings = #[]) : KeyedVariables ο where
  toVariables := v
  agrees name group := by rw [Variables.bindingOf?, h]; simp

/-- The map with the bindings of other variables, which are the same. -/
def withStores (k : KeyedVariables ο) (v : Variables ο) (h : v.bindings = k.bindings) :
    KeyedVariables ο where
  toVariables := v
  resolved := k.resolved
  agrees name group := by rw [k.agrees, Variables.bindingOf?, Variables.bindingOf?, h]

theorem agrees_insert (k : KeyedVariables ο) (hgroup : source.isGroup = group)
    (hnone : k.resolved[(name, group)]? = none) (other : String) (group' : Bool) :
    (k.resolved.insert (name, group) k.bindings.size)[(other, group')]? =
      (k.toVariables.bind ⟨name, source⟩).2.bindingOf? other group' := by
  rw [Variables.bindingOf?_bind, Std.HashMap.getElem?_insert, ← k.agrees, hgroup]
  change (if (name == other && group == group') = true then _ else _) = _
  split
  · rename_i hkey
    obtain ⟨hname, hgroup'⟩ := Bool.and_eq_true_iff.mp hkey
    rw [← beq_iff_eq.mp hname, ← beq_iff_eq.mp hgroup', hnone, Option.none_or]
  · rw [Option.or_none]

/-- A new binding, which the map leads to from a key that it has not. -/
def bind (k : KeyedVariables ο) (name : String) (group : Bool) (source : Source)
    (hgroup : source.isGroup = group) (hnone : k.resolved[(name, group)]? = none) :
    Option Nat × KeyedVariables ο :=
  (some k.bindings.size,
    { toVariables := (k.toVariables.bind ⟨name, source⟩).2
      resolved := k.resolved.insert (name, group) k.bindings.size
      agrees := k.agrees_insert hgroup hnone })

def resolveRead (name : String) (k : KeyedVariables ο) : Option Nat × KeyedVariables ο :=
  match hnone : k.resolved[(name, false)]? with
  | some i => (some i, k)
  | none =>
    match hsource : k.source? name with
    | some source => k.bind name false source (Variables.supports_source? hsource).2 hnone
    | none => (none, k)

def resolveArray (name : String) (k : KeyedVariables ο) : Option Nat × KeyedVariables ο :=
  match hnone : k.resolved[(name, true)]? with
  | some i => (some i, k)
  | none =>
    match hsource : (k.matrixSource? name).filter Source.isGroup with
    | some source => k.bind name true source (Option.filter_eq_some_iff.mp hsource).2 hnone
    | none => resolveRead name k

theorem toVariables_resolveRead (name : String) (k : KeyedVariables ο) :
    Variables.resolveRead name k.toVariables = Prod.map id toVariables (k.resolveRead name) := by
  unfold resolveRead
  split
  · rename_i i hi
    exact Variables.resolveRead_of_bindingOf? ((k.agrees name false).symm.trans hi)
  · rename_i hnone
    have hbinding := (k.agrees name false).symm.trans hnone
    split
    · rename_i source hsource
      exact Variables.resolveRead_of_source? hbinding hsource
    · rename_i hsource
      exact Variables.resolveRead_of_none hbinding hsource

theorem toVariables_resolveArray (name : String) (k : KeyedVariables ο) :
    Variables.resolveArray name k.toVariables = Prod.map id toVariables (k.resolveArray name) := by
  unfold resolveArray
  split
  · rename_i i hi
    exact Variables.resolveArray_of_bindingOf? ((k.agrees name true).symm.trans hi)
  · rename_i hnone
    have hbinding := (k.agrees name true).symm.trans hnone
    split
    · rename_i source hsource
      exact Variables.resolveArray_of_group hbinding hsource
    · rename_i hsource
      exact (Variables.resolveArray_of_none hbinding hsource).trans (toVariables_resolveRead name k)

/-- A name that leads to nothing is no key of the map. -/
theorem unresolved_of_resolveRead (h : k.resolveRead name = (none, k')) :
    k'.resolved[(name, false)]? = none := by
  unfold resolveRead at h
  split at h
  · cases h
  · rename_i hnone
    split at h
    · cases h
    · cases h
      exact hnone

/-- A name that leads to nothing gets a new scalar, which is bound as a value. -/
def resolveAssign (name : String) (k : KeyedVariables ο) : Option Nat × KeyedVariables ο :=
  match hread : k.resolveRead name with
  | (some i, k') => (if k'.bindings[i]?.any fun b => b.source.isWritable then some i else none, k')
  | (none, k') =>
    have hnone := unresolved_of_resolveRead hread
    if k'.isFree name then
      let (slot, scalars) := k'.scalars.allocate name
      (k'.withStores { k'.toVariables with scalars } rfl).bind name false (.scalar slot) rfl hnone
    else (none, k')

theorem toVariables_resolveAssign (name : String) (k : KeyedVariables ο) :
    Variables.resolveAssign name k.toVariables = Prod.map id toVariables (k.resolveAssign name) := by
  have hplain := k.toVariables_resolveRead name
  unfold resolveAssign
  split
  · rename_i i k' hread
    rw [hread] at hplain
    rw [Variables.resolveAssign, hplain]
    rfl
  · rename_i k' hread
    rw [hread] at hplain
    rw [Variables.resolveAssign, hplain]
    simp only [Prod.map, id]
    split <;> rfl

instance : Resolver (KeyedVariables ο) where
  resolveRead := resolveRead
  resolveArray := resolveArray
  resolveAssign := resolveAssign

theorem translation : Translation (@toVariables ο) where
  read := toVariables_resolveRead
  array := toVariables_resolveArray
  assign := toVariables_resolveAssign

/-- An operation that looks no names up leaves the map as it is. -/
def performUnresolved (k : KeyedVariables ο) (operation : Operation ο)
    (h : operation.resolves = false) : KeyedVariables ο :=
  k.withStores (k.toVariables.perform operation) (k.bindings_perform h)

def perform (k : KeyedVariables ο) : Operation ο → KeyedVariables ο
  | .resolveRead name => (k.resolveRead name).2
  | .resolveArray name => (k.resolveArray name).2
  | .resolveAssign name => (k.resolveAssign name).2
  | .compile text => (ofText? text k).2
  | .compileUtility spec => (Utility.compile spec k).2
  | .solve e ctx => k.performUnresolved (.solve e ctx) rfl
  | .write i x ctx => k.performUnresolved (.write i x ctx) rfl
  | .solveUtility u ctx => k.performUnresolved (.solveUtility u ctx) rfl
  | .traceUtility u ctx alternative => k.performUnresolved (.traceUtility u ctx alternative) rfl
  | .setScalar name x => k.performUnresolved (.setScalar name x) rfl
  | .addZoneColumn name values => k.performUnresolved (.addZoneColumn name values) rfl
  | .addHouseholdColumn name values => k.performUnresolved (.addHouseholdColumn name values) rfl
  | .addAlternativeColumn name values => k.performUnresolved (.addAlternativeColumn name values) rfl
  | .addMatrix m orientation => k.performUnresolved (.addMatrix m orientation) rfl
  | .addArray name members orientation => k.performUnresolved (.addArray name members orientation) rfl
  | .addCollection name members orientation =>
    k.performUnresolved (.addCollection name members orientation) rfl
  | .register name f => k.performUnresolved (.register name f) rfl

def performAll (k : KeyedVariables ο) (operations : List (Operation ο)) : KeyedVariables ο :=
  operations.foldl perform k

theorem toVariables_perform (k : KeyedVariables ο) (operation : Operation ο) :
    (k.perform operation).toVariables = k.toVariables.perform operation := by
  cases operation with
  | resolveRead name => exact (congrArg Prod.snd (k.toVariables_resolveRead name)).symm
  | resolveArray name => exact (congrArg Prod.snd (k.toVariables_resolveArray name)).symm
  | resolveAssign name => exact (congrArg Prod.snd (k.toVariables_resolveAssign name)).symm
  | compile text => exact (congrArg Prod.snd (translation.ofText? text k)).symm
  | compileUtility spec => exact (congrArg Prod.snd (Utility.compile_translation translation spec k)).symm
  | _ => rfl

theorem toVariables_performAll (k : KeyedVariables ο) (operations : List (Operation ο)) :
    (k.performAll operations).toVariables = k.toVariables.performAll operations := by
  induction operations generalizing k with
  | nil => rfl
  | cons operation operations ih =>
    have hrest := ih (k.perform operation)
    rw [toVariables_perform] at hrest
    exact hrest

end KeyedVariables

end Store

end ChoiceModel
