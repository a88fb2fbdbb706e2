import ChoiceModel.Proofs.Expression.Replay
import ChoiceModel.Proofs.Store.KeyedVariables

/-! The table of bindings agrees with the stores. Every binding is the only one of its name in its
position, and points at what a fresh lookup would select. Resolving, compiling and solving keep it so:
the one thing that they add to the stores is a scalar whose name selected nothing before. -/

namespace ChoiceModel

open Expression Store

variable {ο τ : Type}

namespace Store.Variables

variable {u v w : Variables ο} {name other : String} {group : Bool} {i : Nat} {source : Source}

/-- The source that a name has as a group or as a value. -/
def sourceAs? (v : Variables ο) (name : String) : Bool → Option Source
  | true => v.among? name .group
  | false => v.source? name

/-- Every binding is found under its name, and has the source that its name selects. -/
def Cached (v : Variables ο) : Prop :=
  ∀ (i : Nat) b, v.bindings[i]? = some b → v.bindingOf? b.name b.source.isGroup = some i ∧
    v.sourceAs? b.name b.source.isGroup = some b.source

theorem isGroup_of_sourceAs? (h : v.sourceAs? name group = some source) :
    source.isGroup = group := by
  cases group with
  | true => exact (Option.filter_eq_some_iff.mp h).2
  | false => exact (supports_source? h).2

theorem getElem?_of_bindingOf? (h : v.bindingOf? name group = some i) :
    ∃ source, v.bindings[i]? = some ⟨name, source⟩ ∧ source.isGroup = group := by
  obtain ⟨hlt, hkey, -⟩ := Array.findIdx?_eq_some_iff_getElem.mp h
  obtain ⟨hname, hgroup⟩ := Bool.and_eq_true_iff.mp hkey
  refine ⟨v.bindings[i].source, ?_, beq_iff_eq.mp hgroup⟩
  rw [Array.getElem?_eq_getElem hlt, ← beq_iff_eq.mp hname]

theorem cached_of_bindings_eq_empty (h : v.bindings = #[]) : v.Cached := by
  intro i b hb
  rw [h] at hb
  cases hb

theorem Cached.bindingOf?_eq_some_iff (h : v.Cached) : v.bindingOf? name group = some i ↔
    ∃ source, v.bindings[i]? = some ⟨name, source⟩ ∧ source.isGroup = group := by
  refine ⟨getElem?_of_bindingOf?, ?_⟩
  rintro ⟨source, hb, rfl⟩
  exact (h i _ hb).1

/-- A binding for a name that has none in its position becomes the one that is found. -/
theorem Cached.bind (h : v.Cached) (hnone : v.bindingOf? name group = none)
    (hsource : v.sourceAs? name group = some source) : (v.bind ⟨name, source⟩).2.Cached := by
  have hgroup := isGroup_of_sourceAs? hsource
  intro i b hb
  rw [Variables.bind, Array.getElem?_push] at hb
  rw [bindingOf?_bind]
  split at hb
  · rename_i hi
    cases hb
    subst hi
    rw [hgroup]
    refine ⟨?_, hsource⟩
    rw [hnone, Option.none_or, if_pos (by simp)]
  · obtain ⟨hfound, hselected⟩ := h i b hb
    rw [hfound]
    exact ⟨rfl, hselected⟩

/-- The variables `w` have the same names as `v` in every store. -/
structure SameSources (v w : Variables ο) : Prop where
  scalars : ∀ name, w.scalars.indexOf? name = v.scalars.indexOf? name
  zones : ∀ name, w.zones.indexOf? name = v.zones.indexOf? name
  households : ∀ name, w.households.indexOf? name = v.households.indexOf? name
  alternatives : ∀ name, w.alternatives.indexOf? name = v.alternatives.indexOf? name
  matrices : w.matrices = v.matrices
  attributes : w.attributes = v.attributes

theorem SameSources.among? (h : v.SameSources w) (name : String) (kind : Kind) :
    w.among? name kind = v.among? name kind := by
  cases kind <;> simp only [Variables.among?, matrixSource?, h.scalars, h.zones, h.households,
    h.alternatives, h.matrices, h.attributes]

theorem write_sameSources {x : Float} {ctx : Context ο} (h : v.write i x ctx = .ok w) :
    v.SameSources w := by
  obtain ⟨name, source, -, hstored⟩ := write_eq_ok h
  have hsame : v.SameSources v :=
    ⟨fun _ => rfl, fun _ => rfl, fun _ => rfl, fun _ => rfl, rfl, rfl⟩
  cases hstored with
  | scalar hwrite =>
    obtain ⟨-, rfl⟩ := Scalars.write_eq_ok hwrite
    exact { hsame with scalars := Scalars.indexOf?_setAt _ _ _ }
  | zone _ hwrite => exact { hsame with zones := DataTable.indexOf?_write hwrite }
  | household _ hwrite => exact { hsame with households := DataTable.indexOf?_write hwrite }
  | alternative _ hwrite => exact { hsame with alternatives := DataTable.indexOf?_write hwrite }

theorem sourceAs?_congr (h : ∀ kind, w.among? name kind = v.among? name kind) (group : Bool) :
    w.sourceAs? name group = v.sourceAs? name group := by
  cases group with
  | true => exact h .group
  | false =>
    rw [sourceAs?, sourceAs?, source?_eq_findSome?, source?_eq_findSome?, funext h]

theorem source?_of_scalar {slot : Nat} (hplain : isPlain name = true)
    (h : v.scalars.indexOf? name = some slot) : v.source? name = some (.scalar slot) := by
  unfold source?
  split
  · simp_all [isPlain]
  · simp_all [isPlain]
  · simp_all [isPlain]
  · rw [h]
    rfl

theorem source?_push (hfree : v.isFree name = true) (hnew : v.scalars.indexOf? name = none) :
    ({ v with scalars := ⟨v.scalars.entries.push (name, 0.0)⟩ } : Variables ο).source? name =
      some (.scalar v.scalars.size) :=
  source?_of_scalar (isPlain_of_isFree hfree) (Scalars.indexOf?_push_self hnew 0.0)

/-- A new scalar is selected by its own name at most. -/
theorem sourceAs?_push (hne : other ≠ name) (x : Float) (group : Bool) :
    ({ v with scalars := ⟨v.scalars.entries.push (name, x)⟩ } : Variables ο).sourceAs? other group =
      v.sourceAs? other group := by
  refine sourceAs?_congr (fun kind => ?_) group
  cases kind with
  | scalar => simp only [among?, Scalars.indexOf?_push_of_ne hne]
  | _ => rfl

/-- A new scalar is selected by no name that selects anything without it. -/
theorem Cached.push (h : v.Cached) (hsource : v.source? name = none) (x : Float) :
    ({ v with scalars := ⟨v.scalars.entries.push (name, x)⟩ } : Variables ο).Cached := by
  intro i b hb
  obtain ⟨hfound, hselected⟩ := h i b hb
  refine ⟨hfound, ?_⟩
  rw [← hselected]
  cases hgroup : b.source.isGroup with
  | true => rfl
  | false =>
    refine sourceAs?_push (fun hname => ?_) x false
    rw [hgroup, sourceAs?, hname, hsource] at hselected
    cases hselected

/-- What becomes of variables whose stores are changed by expressions alone. -/
structure Settles (v w : Variables ο) : Prop where
  bindings : ∀ (i : Nat) b, v.bindings[i]? = some b → w.bindings[i]? = some b
  matrices : w.matrices = v.matrices
  cached : v.Cached → w.Cached

theorem Settles.refl (v : Variables ο) : v.Settles v := ⟨fun _ _ h => h, rfl, id⟩

theorem Settles.trans (h : u.Settles v) (h' : v.Settles w) : u.Settles w :=
  ⟨fun i b hb => h'.bindings i b (h.bindings i b hb), h'.matrices.trans h.matrices,
    fun hu => h'.cached (h.cached hu)⟩

theorem write_settles {x : Float} {ctx : Context ο} (h : v.write i x ctx = .ok w) :
    v.Settles w := by
  have hsources := write_sameSources h
  have hbindings := (write_sameNames h).bindings
  refine ⟨fun j b hb => ?_, hsources.matrices, fun hv j b hb => ?_⟩
  · rwa [hbindings]
  · rw [hbindings] at hb
    rw [bindingOf?, hbindings, sourceAs?_congr (hsources.among? b.name)]
    exact hv j b hb

theorem settles_bind (hnone : v.bindingOf? name group = none)
    (hsource : v.sourceAs? name group = some source) : v.Settles (v.bind ⟨name, source⟩).2 :=
  ⟨fun _ _ => getElem?_bind, rfl, fun hv => hv.bind hnone hsource⟩

theorem resolveRead_settles (name : String) (v : Variables ο) :
    v.Settles (resolveRead name v).2 := by
  cases hbinding : v.bindingOf? name false with
  | some i =>
    rw [resolveRead_of_bindingOf? hbinding]
    exact .refl v
  | none =>
    cases hsource : v.source? name with
    | some source =>
      rw [resolveRead_of_source? hbinding hsource]
      exact settles_bind hbinding hsource
    | none =>
      rw [resolveRead_of_none hbinding hsource]
      exact .refl v

theorem resolveArray_settles (name : String) (v : Variables ο) :
    v.Settles (resolveArray name v).2 := by
  cases hbinding : v.bindingOf? name true with
  | some i =>
    rw [resolveArray_of_bindingOf? hbinding]
    exact .refl v
  | none =>
    cases hsource : v.among? name .group with
    | some source =>
      rw [resolveArray_of_group hbinding hsource]
      exact settles_bind hbinding hsource
    | none =>
      rw [resolveArray_of_none hbinding hsource]
      exact resolveRead_settles name v

/-- What an index found for a name that is looked up in the order leads to. -/
inductive Found (v w : Variables ο) (name : String) (order : List Kind) : Option Nat → Prop where
  | selected {i : Nat} {source : Source} : v.Selects name order source →
    w.bindings[i]? = some ⟨name, source⟩ → Found v w name order (some i)
  | unknown : (∀ source, ¬ v.Selects name order source) → Found v w name order none

theorem Cached.resolveRead (h : v.Cached) (name : String) :
    Found v (resolveRead name v).2 name Kind.values (resolveRead name v).1 := by
  cases hbinding : v.bindingOf? name false with
  | some i =>
    rw [resolveRead_of_bindingOf? hbinding]
    obtain ⟨source, hb, hgroup⟩ := getElem?_of_bindingOf? hbinding
    have hsource := (h i _ hb).2
    rw [hgroup] at hsource
    exact .selected (source?_eq_some_iff.mp hsource) hb
  | none =>
    cases hsource : v.source? name with
    | some source =>
      rw [resolveRead_of_source? hbinding hsource]
      exact .selected (source?_eq_some_iff.mp hsource) Array.getElem?_push_size
    | none =>
      rw [resolveRead_of_none hbinding hsource]
      refine .unknown fun source hselects => ?_
      rw [source?_eq_some_iff.mpr hselects] at hsource
      cases hsource

theorem Cached.resolveArray (h : v.Cached) (name : String) :
    Found v (resolveArray name v).2 name Kind.arguments (resolveArray name v).1 := by
  cases hbinding : v.bindingOf? name true with
  | some i =>
    rw [resolveArray_of_bindingOf? hbinding]
    obtain ⟨source, hb, hgroup⟩ := getElem?_of_bindingOf? hbinding
    have hsource := (h i _ hb).2
    rw [hgroup] at hsource
    exact .selected (.inl (denotes_of_among? hsource)) hb
  | none =>
    cases hsource : v.among? name .group with
    | some source =>
      rw [resolveArray_of_group hbinding hsource]
      exact .selected (.inl (denotes_of_among? hsource)) Array.getElem?_push_size
    | none =>
      rw [resolveArray_of_none hbinding hsource]
      have hgroup : ∀ other, ¬ v.Denotes .group name other := by
        intro other hother
        rw [hother.among?_eq_some] at hsource
        cases hsource
      have hread := h.resolveRead name
      rcases hresolve : Variables.resolveRead name v with ⟨r, w⟩
      rw [hresolve] at hread
      cases hread with
      | selected hselects hb => exact .selected (.inr ⟨hgroup, hselects⟩) hb
      | unknown hnone =>
        refine .unknown fun source hselects => ?_
        obtain hgroup' | ⟨-, hselects⟩ := hselects
        · exact hgroup source hgroup'
        · exact hnone source hselects

/-- What an index found for the target of an assignment leads to: a place that can be written and that
the name selects already, or a new scalar that it selects from now on. -/
inductive Targeted (v w : Variables ο) (name : String) : Option Nat → Prop where
  | selected {i : Nat} {source : Source} : v.Selects name Kind.values source →
    source.isWritable = true → w.bindings[i]? = some ⟨name, source⟩ → Targeted v w name (some i)
  | created {i slot : Nat} : (∀ source, ¬ v.Selects name Kind.values source) → v.isFree name = true →
    Creates name i v w → w.Selects name Kind.values (.scalar slot) →
    w.bindings[i]? = some ⟨name, .scalar slot⟩ → Targeted v w name (some i)
  | readOnly {source : Source} : v.Selects name Kind.values source → source.isWritable = false →
    Targeted v w name none
  | reserved : (∀ source, ¬ v.Selects name Kind.values source) → v.isFree name = false →
    Targeted v w name none

theorem Cached.resolveAssign (h : v.Cached) (name : String) :
    Targeted v (resolveAssign name v).2 name (resolveAssign name v).1 := by
  have hfound := h.resolveRead name
  obtain ⟨i, w, hread, hassign⟩ | ⟨hread, hassign⟩ := resolveAssign_cases name v
  · rw [hread] at hfound
    cases hfound with
    | @selected _ source hselects hb =>
      rw [hassign, hb, Option.any_some]
      cases hwritable : source.isWritable with
      | true => exact .selected hselects hwritable hb
      | false => exact .readOnly hselects hwritable
  · rw [hread] at hfound
    cases hfound with
    | unknown hnone =>
      obtain ⟨hfree, hassign⟩ | ⟨hfree, hnew, hassign⟩ := hassign
      · rw [hassign]
        exact .reserved hnone hfree
      · have hsource := (unknown_of_resolveRead (congrArg Prod.fst hread)).2
        have hselected := source?_push hfree hnew
        rw [hassign]
        exact .created hnone hfree ⟨hsource, v, _, _, .refl v, ⟨hnew, rfl, rfl⟩, rfl, rfl⟩
          (source?_eq_some_iff.mp hselected) Array.getElem?_push_size

theorem resolveAssign_settles (name : String) (v : Variables ο) :
    v.Settles (resolveAssign name v).2 := by
  obtain ⟨i, w, hread, hassign⟩ | ⟨hread, ⟨-, hassign⟩ | ⟨hfree, hnew, hassign⟩⟩ :=
    resolveAssign_cases name v
  · have hsettles := resolveRead_settles name v
    rw [hread] at hsettles
    rw [hassign]
    exact hsettles
  · rw [hassign]
    exact .refl v
  · obtain ⟨hbinding, hsource⟩ := unknown_of_resolveRead (congrArg Prod.fst hread)
    have hpush : v.Settles { v with scalars := ⟨v.scalars.entries.push (name, 0.0)⟩ } :=
      ⟨fun _ _ h => h, rfl, fun hv => hv.push hsource 0.0⟩
    rw [hassign]
    exact hpush.trans (settles_bind hbinding (source?_push hfree hnew))

/-- A binding that is there is found again. -/
theorem Settles.bindingOf? (h : v.Settles w) (hv : v.Cached)
    (hb : v.bindings[i]? = some ⟨name, source⟩) :
    w.bindingOf? name source.isGroup = some i :=
  (h.cached hv i _ (h.bindings i _ hb)).1

/-- A name that is no group stays none. -/
theorem Settles.no_group (h : v.Settles w) (hv : v.Cached) (hnone : v.among? name .group = none) :
    w.bindingOf? name true = none ∧ w.among? name .group = none := by
  have hsource : w.among? name .group = none := by
    rw [among?, matrixSource?, h.matrices]
    exact hnone
  refine ⟨Option.eq_none_iff_forall_ne_some.mpr fun i hi => ?_, hsource⟩
  obtain ⟨source, hb, hgroup⟩ := getElem?_of_bindingOf? hi
  have hselected := (h.cached hv i _ hb).2
  rw [hgroup, sourceAs?, hsource] at hselected
  cases hselected

theorem resolveRead_again (hv : v.Cached) (h : resolveRead name v = (some i, u))
    (hw : u.Settles w) : resolveRead name w = (some i, w) := by
  have hfound := hv.resolveRead name
  have hu := (resolveRead_settles name v).cached hv
  rw [h] at hfound hu
  cases hfound with
  | selected hselects hb =>
    have hgroup := (supports_source? (source?_eq_some_iff.mpr hselects)).2
    have hbinding := hw.bindingOf? hu hb
    rw [hgroup] at hbinding
    exact resolveRead_of_bindingOf? hbinding

theorem resolveArray_again (hv : v.Cached) (h : resolveArray name v = (some i, u))
    (hw : u.Settles w) : resolveArray name w = (some i, w) := by
  have hsettles := resolveArray_settles name v
  rw [h] at hsettles
  have hu := hsettles.cached hv
  cases hbinding : v.bindingOf? name true with
  | some j =>
    obtain ⟨source, hb, hgroup⟩ := getElem?_of_bindingOf? hbinding
    have hbinding' := (hsettles.trans hw).bindingOf? hv hb
    rw [resolveArray_of_bindingOf? hbinding] at h
    cases h
    rw [hgroup] at hbinding'
    exact resolveArray_of_bindingOf? hbinding'
  | none =>
    cases hsource : v.among? name .group with
    | some source =>
      have hgroup : source.isGroup = true := isGroup_of_sourceAs? hsource
      rw [resolveArray_of_group hbinding hsource] at h
      cases h
      have hbinding' := hw.bindingOf? hu Array.getElem?_push_size
      rw [hgroup] at hbinding'
      exact resolveArray_of_bindingOf? hbinding'
    | none =>
      obtain ⟨hbinding', hsource'⟩ := (hsettles.trans hw).no_group hv hsource
      rw [resolveArray_of_none hbinding hsource] at h
      rw [resolveArray_of_none hbinding' hsource']
      exact resolveRead_again hv h hw

theorem resolveAssign_again (hv : v.Cached) (h : resolveAssign name v = (some i, u))
    (hw : u.Settles w) : resolveAssign name w = (some i, w) := by
  have hfound := hv.resolveAssign name
  have hu := (resolveAssign_settles name v).cached hv
  rw [h] at hfound hu
  have hplace : ∃ source, u.bindings[i]? = some ⟨name, source⟩ ∧ source.isWritable = true := by
    cases hfound with
    | selected hselects hwritable hb => exact ⟨_, hb, hwritable⟩
    | created hnone hfree hcreates hselects hb => exact ⟨_, hb, rfl⟩
  obtain ⟨source, hb, hwritable⟩ := hplace
  have hgroup : source.isGroup = false := by
    cases source <;> first | rfl | cases hwritable
  have hbinding := hw.bindingOf? hu hb
  rw [hgroup] at hbinding
  rw [Variables.resolveAssign, resolveRead_of_bindingOf? hbinding]
  simp only [hw.bindings _ _ hb, Option.any_some, hwritable, if_true]

theorem lasting_settles : Lasting (@Settles ο) Cached where
  refl := .refl
  trans _ _ _ := .trans
  read := resolveRead_settles
  array := resolveArray_settles
  assign := resolveAssign_settles
  keeps _ _ h := h.cached
  read_again _ _ _ _ _ := resolveRead_again
  array_again _ _ _ _ _ := resolveArray_again
  assign_again _ _ _ _ _ := resolveAssign_again

theorem written_settles : Written (Context ο) (@Settles ο) where
  refl := .refl
  trans _ _ _ := .trans
  write _ _ _ _ _ := write_settles

end Store.Variables

namespace Store

/-- Whether an operation changes what the stores have other than through names of expressions. -/
def Operation.declares : Operation ο → Bool
  | .setScalar .. | .addZoneColumn .. | .addHouseholdColumn .. | .addAlternativeColumn ..
  | .addMatrix .. | .addArray .. | .addCollection .. | .register .. => true
  | .resolveRead _ | .resolveArray _ | .resolveAssign _ | .compile _ | .solve .. | .write ..
  | .compileUtility _ | .solveUtility .. | .traceUtility .. => false

namespace Variables

theorem perform_settles (v : Variables ο) {operation : Operation ο}
    (h : operation.declares = false) : v.Settles (v.perform operation) := by
  cases operation with
  | resolveRead name => exact resolveRead_settles name v
  | resolveArray name => exact resolveArray_settles name v
  | resolveAssign name => exact resolveAssign_settles name v
  | compile text => exact Expression.ofText?_resolving lasting_settles.toResolving text v
  | solve e ctx => exact e.solveSeen_written written_settles .silent v ctx ()
  | write i x ctx =>
    cases hwrite : v.write i x ctx with
    | ok w =>
      simp only [perform, hwrite]
      exact write_settles hwrite
    | error err =>
      simp only [perform, hwrite]
      exact .refl v
  | compileUtility spec => exact Utility.compile_resolving lasting_settles.toResolving spec v
  | solveUtility u ctx => exact u.solveSeen_written written_settles .silent v ctx ()
  | traceUtility u ctx alternative =>
    exact u.traceSeen_written written_settles .silent v ctx alternative ()
  | _ => cases h

theorem performAll_settles (v : Variables ο) {operations : List (Operation ο)}
    (h : ∀ operation ∈ operations, operation.declares = false) :
    v.Settles (v.performAll operations) := by
  induction operations generalizing v with
  | nil => exact .refl v
  | cons operation operations ih =>
    rw [List.forall_mem_cons] at h
    exact (v.perform_settles h.1).trans (ih _ h.2)

theorem Fresh.bindings {v : Variables ο} (h : Fresh v) : v.bindings = #[] := by
  cases h with
  | new attributes => rfl
  | loaded attributes hload =>
    have hbindings := load_bindings hload
    exact hbindings

/-- Every name has one place in the table of bindings, and is resolved to the one source that it selects
in the stores. -/
structure Consistent (v : Variables ο) : Prop where
  key : ∀ name group i, v.bindingOf? name group = some i ↔
    ∃ source, v.bindings[i]? = some ⟨name, source⟩ ∧ source.isGroup = group
  read : ∀ name, Found v (resolveRead name v).2 name Kind.values (resolveRead name v).1
  array : ∀ name, Found v (resolveArray name v).2 name Kind.arguments (resolveArray name v).1
  assign : ∀ name, Targeted v (resolveAssign name v).2 name (resolveAssign name v).1
  unique : ∀ name order source other, v.Selects name order source → v.Selects name order other →
    source = other

/-- The map of `k` leads from every name that has been resolved to its one binding in `v`, and with the
map names are resolved and texts are compiled as without it. -/
structure Keyed (v : Variables ο) (k : KeyedVariables ο) : Prop where
  unkeyed : k.toVariables = v
  key : ∀ (name : String) (group : Bool) (i : Nat), k.resolved[(name, group)]? = some i ↔
    ∃ source, v.bindings[i]? = some ⟨name, source⟩ ∧ source.isGroup = group
  read : ∀ name, resolveRead name v = Prod.map id KeyedVariables.toVariables (k.resolveRead name)
  array : ∀ name, resolveArray name v = Prod.map id KeyedVariables.toVariables (k.resolveArray name)
  assign : ∀ name, resolveAssign name v = Prod.map id KeyedVariables.toVariables (k.resolveAssign name)
  compile : ∀ text, ofText? text v = Prod.map id KeyedVariables.toVariables (ofText? text k)

/-- Bindings stay as they are, and what has been resolved or compiled once comes out the same after
the operations. -/
structure Repeats (v : Variables ο) (operations : List (Operation ο)) : Prop where
  bindings : ∀ (i : Nat) b, v.bindings[i]? = some b → (v.performAll operations).bindings[i]? = some b
  read : ∀ name i u, resolveRead name v = (some i, u) →
    resolveRead name (u.performAll operations) = (some i, u.performAll operations)
  array : ∀ name i u, resolveArray name v = (some i, u) →
    resolveArray name (u.performAll operations) = (some i, u.performAll operations)
  assign : ∀ name i u, resolveAssign name v = (some i, u) →
    resolveAssign name (u.performAll operations) = (some i, u.performAll operations)
  compile : ∀ text e u, ofText? text v = (.ok e, u) →
    ofText? text (u.performAll operations) = (.ok e, u.performAll operations)

theorem Cached.consistent {v : Variables ο} (h : v.Cached) : v.Consistent where
  key _ _ _ := h.bindingOf?_eq_some_iff
  read := h.resolveRead
  array := h.resolveArray
  assign := h.resolveAssign
  unique _ _ _ _ := Selects.unique

theorem Cached.keyed {k : KeyedVariables ο} (h : k.toVariables.Cached) : k.toVariables.Keyed k where
  unkeyed := rfl
  key name group i := by rw [k.agrees, h.bindingOf?_eq_some_iff]
  read name := k.toVariables_resolveRead name
  array name := k.toVariables_resolveArray name
  assign name := k.toVariables_resolveAssign name
  compile text := KeyedVariables.translation.ofText? text k

theorem Cached.repeats {v : Variables ο} (h : v.Cached) {operations : List (Operation ο)}
    (hoperations : ∀ operation ∈ operations, operation.declares = false) :
    v.Repeats operations where
  bindings := (v.performAll_settles hoperations).bindings
  read _ _ u hread := resolveRead_again h hread (u.performAll_settles hoperations)
  array _ _ u harray := resolveArray_again h harray (u.performAll_settles hoperations)
  assign _ _ u hassign := resolveAssign_again h hassign (u.performAll_settles hoperations)
  compile text e u hcompile := by
    obtain ⟨c, hc, rfl⟩ := ofText?_eq_ok_iff.mp hcompile
    have hagain := compile_again lasting_settles hc h (u.performAll_settles hoperations)
    exact ofText?_eq_ok_iff.mpr ⟨c, hagain, rfl⟩

/-- Whatever has been resolved, compiled and solved among the data of a model, names lead to what they
select in the stores at that time, and go on to lead there. A map from names to bindings, empty at first,
has led to the same. -/
theorem performAll_consistent {start : Variables ο} (hstart : start.Fresh)
    (before later : List (Operation ο)) (hbefore : ∀ operation ∈ before, operation.declares = false)
    (hlater : ∀ operation ∈ later, operation.declares = false) :
    (start.performAll before).Consistent ∧ (start.performAll before).Repeats later ∧
      ∃ k : KeyedVariables ο, k.toVariables = start ∧ k.resolved.isEmpty = true ∧
        (start.performAll before).Keyed (k.performAll before) := by
  have hcached := (start.performAll_settles hbefore).cached (cached_of_bindings_eq_empty hstart.bindings)
  refine ⟨hcached.consistent, hcached.repeats hlater, .unresolved start hstart.bindings, rfl,
    Std.HashMap.isEmpty_empty, ?_⟩
  have hplain := (KeyedVariables.unresolved start hstart.bindings).toVariables_performAll before
  change _ = start.performAll before at hplain
  rw [← hplain] at hcached ⊢
  exact hcached.keyed

/-- A zone column, an array of matrices, and the first `n` bindings to them. -/
def skims (n : Nat) : Variables Unit where
  zones := ⟨#[("pop", #[])], 0⟩
  matrices := ⟨#[⟨"skims", .array #[], .byOrigin⟩]⟩
  bindings := #[⟨"skims", .array 0 .byOrigin⟩, ⟨"dest.pop", .zone 0 .destination⟩].take n

set_option maxRecDepth 20000 in
/-- A group, a column of zones and a new scalar are found again under their names. -/
theorem performAll_consistent_skims : ∃ (m : Model) (before later : List (Operation Unit)),
    m.load = .ok (skims 0) ∧ (∀ operation ∈ before ++ later, operation.declares = false) ∧
      ((skims 0).performAll before).bindings = #[⟨"skims", .array 0 .byOrigin⟩,
        ⟨"dest.pop", .zone 0 .destination⟩, ⟨"x", .scalar 0⟩] ∧
      ((skims 0).performAll before).Consistent ∧ ((skims 0).performAll before).Repeats later ∧
      ∃ k : KeyedVariables Unit, k.toVariables = skims 0 ∧ k.resolved.isEmpty = true ∧
        (k.performAll before).resolved[("dest.pop", false)]? = some 1 := by
  have hload : Model.load { zones := some ⟨[("pop", #[])]⟩, arrays := [⟨"skims", .byOrigin, []⟩] } =
      .ok (skims 0) := by
    cbv
  have hgroup : resolveArray "skims" (skims 0) = (some 0, skims 1) := by
    cbv
  have hcolumn : resolveRead "dest.pop" (skims 1) = (some 1, skims 2) := by
    cbv
  have hscalar : resolveAssign "x" (skims 2) = _ :=
    resolveAssign_of_free (by cbv) (by cbv) (by cbv) (by cbv)
  generalize hbefore : ([.resolveArray "skims", .resolveRead "dest.pop", .resolveAssign "x"] :
    List (Operation Unit)) = before
  have hbindings : ((skims 0).performAll before).bindings = #[⟨"skims", .array 0 .byOrigin⟩,
      ⟨"dest.pop", .zone 0 .destination⟩, ⟨"x", .scalar 0⟩] := by
    subst hbefore
    simp only [performAll, List.foldl_cons, List.foldl_nil, perform, hgroup, hcolumn, hscalar]
    rfl
  have hdeclares : ∀ operation ∈ before, operation.declares = false := by
    subst hbefore
    simp [Operation.declares]
  have hlater : ∀ operation ∈ ([.resolveRead "pop", .compile "x = skims[1]"] : List (Operation Unit)),
      operation.declares = false := by
    simp [Operation.declares]
  obtain ⟨hconsistent, hrepeats, k, hstart, hempty, hkeyed⟩ :=
    performAll_consistent (.loaded {} hload) before _ hdeclares hlater
  refine ⟨_, before, _, hload, fun operation h => ?_, hbindings, hconsistent, hrepeats, k, hstart, hempty,
    (hkeyed.key _ _ _).mpr ⟨.zone 0 .destination, ?_, rfl⟩⟩
  · exact (List.mem_append.mp h).elim (hdeclares operation) (hlater operation)
  · change ((skims 0).performAll before).bindings[1]? = _
    rw [hbindings]
    rfl

end Variables

end Store

end ChoiceModel
