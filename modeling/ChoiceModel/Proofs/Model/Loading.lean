import ChoiceModel.Proofs.Model.Tables
import ChoiceModel.Proofs.Store.Registration

/-! What keeps a model from being loaded, and where its data are found once it has been. -/

namespace ChoiceModel

open Store
open Expression (EvalError)
open Model (Defect MatrixSpec GroupSpec kept)

/-- The trip whose value stands in a row and a column. -/
def Store.Orientation.trip : Orientation → Nat → Nat → Nat × Nat
  | byOrigin, row, column => (row, column)
  | byDestination, row, column => (column, row)

theorem Store.Orientation.cell_trip (o : Orientation) (row column : Nat) :
    o.cell (o.trip row column).1 (o.trip row column).2 = (row, column) := by
  cases o with
  | byOrigin => rfl
  | byDestination => rfl

namespace Store.Scalars

variable {t : Scalars} {pairs : List (String × Float)} {name : String} {x : Float}

theorem entries_set_of_free (h : t.indexOf? name = none) (x : Float) :
    (t.set name x).2.entries = t.entries.push (name, x) := by
  have hmodify : (t.entries.push (name, 0.0)).modify t.entries.size (fun entry => (entry.1, x)) =
      t.entries.push (name, x) := by
    refine Array.ext_getElem? fun i => ?_
    rw [Array.getElem?_modify, Array.getElem?_push, Array.getElem?_push]
    by_cases hi : t.entries.size = i
    · rw [if_pos hi, if_pos hi.symm, if_pos hi.symm]
      rfl
    · rw [if_neg hi, if_neg (Ne.symm hi), if_neg (Ne.symm hi)]
  rw [set, allocate, h]
  exact hmodify

theorem entries_foldl_set (h : ((t.entries.toList ++ pairs).map Prod.fst).Nodup) :
    (pairs.foldl (fun t pair => (t.set pair.1 pair.2).2) t).entries = t.entries ++ pairs.toArray := by
  induction pairs generalizing t with
  | nil => exact Array.append_empty.symm
  | cons pair pairs ih =>
    obtain ⟨name, x⟩ := pair
    have hfree : t.indexOf? name = none := findIdx?_eq_none_of_nodup h
    have hentries := entries_set_of_free hfree x
    rw [List.foldl_cons, ih (by rw [hentries]; simpa using h), hentries]
    simp

/-- Scalars whose names differ are found under their names. -/
theorem read_ofList (h : (pairs.map Prod.fst).Nodup) (hmem : (name, x) ∈ pairs) :
    ∃ i, (ofList pairs).indexOf? name = some i ∧ (ofList pairs).read i = .ok x := by
  have hentries : (ofList pairs).entries = pairs.toArray := by
    rw [ofList, entries_foldl_set (t := {}) h]
    exact Array.empty_append
  obtain ⟨i, hi⟩ := List.mem_iff_getElem?.mp hmem
  have hplace : (ofList pairs).entries[i]? = some (name, x) := by
    rw [hentries, List.getElem?_toArray]
    exact hi
  refine ⟨i, (findIdx?_eq_some_iff_of_nodup ?_).mpr ⟨_, hplace, rfl⟩, ?_⟩
  · rw [hentries]
    exact h
  · rw [read, value?, hplace]
    rfl

end Store.Scalars

namespace Model

variable {ο : Type}

section Matrices

variable {spec : MatrixSpec} {group : GroupSpec} {matrix : Matrix} {matrices : List Matrix}

/-- Every row of the matrix has as many values as it has rows. -/
def MatrixSpec.Square (spec : MatrixSpec) : Prop := ∀ row ∈ spec.values, row.size = spec.values.size

instance (spec : MatrixSpec) : Decidable spec.Square :=
  inferInstanceAs (Decidable (∀ row ∈ spec.values, row.size = spec.values.size))

def MatrixSpec.declared (spec : MatrixSpec) : Matrix := ⟨spec.name, spec.values⟩

theorem raggedRow?_eq_none_iff {zones row : Nat} {rows : List (Array Float)} :
    Matrix.raggedRow? zones row rows = none ↔ ∀ values ∈ rows, values.size = zones := by
  refine ⟨Matrix.size_of_raggedRow?, fun h => ?_⟩
  induction rows generalizing row with
  | nil => rfl
  | cons values rows ih =>
    obtain ⟨hsize, hrest⟩ := List.forall_mem_cons.mp h
    rw [Matrix.raggedRow?, if_neg (by simpa using hsize)]
    exact ih hrest

theorem matrix_eq_ok_iff : spec.matrix = .ok matrix ↔ spec.Square ∧ spec.declared = matrix := by
  have hsquare : Matrix.raggedRow? spec.values.size 1 spec.values.toList = none ↔ spec.Square := by
    rw [raggedRow?_eq_none_iff]
    simp only [Array.mem_toList_iff]
    rfl
  rw [← hsquare, MatrixSpec.matrix, Matrix.ofRows]
  cases Matrix.raggedRow? spec.values.size 1 spec.values.toList with
  | none => simp [MatrixSpec.declared]
  | some ragged => simp

theorem mapM_matrix_eq_ok_iff {specs : List MatrixSpec} : specs.mapM MatrixSpec.matrix = .ok matrices ↔
    (∀ spec ∈ specs, spec.Square) ∧ specs.map MatrixSpec.declared = matrices := by
  constructor
  · intro h
    obtain rfl := eq_map_of_mapM_eq_ok (fun _ _ hspec => (matrix_eq_ok_iff.mp hspec).2) h
    exact ⟨fun spec hspec => (matrix_eq_ok_iff.mp (mapM_eq_ok_map_iff.mp h spec hspec)).1, rfl⟩
  · rintro ⟨hsquare, rfl⟩
    exact mapM_eq_ok_map_iff.mpr fun spec hspec => matrix_eq_ok_iff.mpr ⟨hsquare spec hspec, rfl⟩

def MatrixSpec.addition (spec : MatrixSpec) : Addition := .matrix spec.declared spec.orientation

def GroupSpec.declared (group : GroupSpec) : Array Matrix :=
  (group.members.map MatrixSpec.declared).toArray

def GroupSpec.array (group : GroupSpec) : Addition :=
  .array group.name group.declared group.orientation

def GroupSpec.collection (group : GroupSpec) : Addition :=
  .collection group.name group.declared group.orientation

/-- What a model adds to a store of matrices, in order. -/
def additions (m : Model) : List Addition :=
  m.matrices.map MatrixSpec.addition ++
    (m.arrays.map GroupSpec.array ++ m.collections.map GroupSpec.collection)

/-- All matrices of a model, those in groups as well. -/
def matrixSpecs (m : Model) : List MatrixSpec :=
  m.matrices ++ (m.arrays.flatMap GroupSpec.members ++ m.collections.flatMap GroupSpec.members)

/-- A loop in which each round performs an addition once its matrices have been built. -/
theorem foldlM_eq_ok_iff {α : Type} {f : Matrices → α → Except Defect Matrices} {P : α → Prop}
    {g : α → Addition} {xs : List α} {t u : Matrices}
    (hf : ∀ t x u, f t x = .ok u ↔ P x ∧ kept (t.perform (g x)) = .ok u) :
    xs.foldlM f t = .ok u ↔ (∀ x ∈ xs, P x) ∧ t.addAll (xs.map g) = .ok u := by
  induction xs generalizing t with
  | nil => simp [Matrices.addAll]
  | cons x xs ih =>
    have hcons : t.addAll ((x :: xs).map g) = .ok u ↔
        ∃ w, kept (t.perform (g x)) = .ok w ∧ w.addAll (xs.map g) = .ok u := bind_eq_ok_iff
    rw [List.foldlM_cons, bind_eq_ok_iff, hcons, List.forall_mem_cons]
    simp only [hf, ih]
    constructor
    · rintro ⟨w, ⟨hx, hfirst⟩, hxs, hrest⟩
      exact ⟨⟨hx, hxs⟩, w, hfirst, hrest⟩
    · rintro ⟨⟨hx, hxs⟩, w, hfirst, hrest⟩
      exact ⟨w, ⟨hx, hfirst⟩, hxs, hrest⟩

theorem addAll_append_eq_ok_iff {as bs : List Addition} {t u : Matrices} :
    t.addAll (as ++ bs) = .ok u ↔ ∃ w, t.addAll as = .ok w ∧ w.addAll bs = .ok u := by
  rw [Matrices.addAll, List.foldlM_append, bind_eq_ok_iff]
  rfl

theorem bind_matrix_eq_ok_iff {f : Matrix → Except Defect Matrices} {u : Matrices} :
    (spec.matrix >>= f) = .ok u ↔ spec.Square ∧ f spec.declared = .ok u := by
  rw [bind_eq_ok_iff]
  simp only [matrix_eq_ok_iff, and_assoc, exists_and_left, exists_eq_left']

theorem bind_mapM_matrix_eq_ok_iff {f : List Matrix → Except Defect Matrices} {u : Matrices} :
    (group.members.mapM MatrixSpec.matrix >>= f) = .ok u ↔
      (∀ spec ∈ group.members, spec.Square) ∧ f (group.members.map MatrixSpec.declared) = .ok u := by
  rw [bind_eq_ok_iff]
  simp only [mapM_matrix_eq_ok_iff, and_assoc, exists_and_left, exists_eq_left']

/-- The matrices of a model load exactly if they are square and all their additions succeed. -/
theorem loadMatrices_eq_ok_iff {m : Model} {t : Matrices} : m.loadMatrices = .ok t ↔
    (∀ spec ∈ m.matrixSpecs, spec.Square) ∧ Matrices.addAll {} m.additions = .ok t := by
  have hmatrices : ∀ t u : Matrices, m.matrices.foldlM (fun t spec => do
      kept (t.addMatrix (← spec.matrix) spec.orientation)) t = .ok u ↔
      (∀ spec ∈ m.matrices, spec.Square) ∧ t.addAll (m.matrices.map MatrixSpec.addition) = .ok u :=
    fun _ _ => foldlM_eq_ok_iff fun _ _ _ => bind_matrix_eq_ok_iff
  have harrays : ∀ t u : Matrices, m.arrays.foldlM (fun t group => do
      let members ← group.members.mapM MatrixSpec.matrix
      kept (t.addArray group.name members.toArray group.orientation)) t = .ok u ↔
      (∀ group ∈ m.arrays, ∀ spec ∈ group.members, spec.Square) ∧
        t.addAll (m.arrays.map GroupSpec.array) = .ok u :=
    fun _ _ => foldlM_eq_ok_iff fun _ _ _ => bind_mapM_matrix_eq_ok_iff
  have hcollections : ∀ t u : Matrices, m.collections.foldlM (fun t group => do
      let members ← group.members.mapM MatrixSpec.matrix
      kept (t.addCollection group.name members.toArray group.orientation)) t = .ok u ↔
      (∀ group ∈ m.collections, ∀ spec ∈ group.members, spec.Square) ∧
        t.addAll (m.collections.map GroupSpec.collection) = .ok u :=
    fun _ _ => foldlM_eq_ok_iff fun _ _ _ => bind_mapM_matrix_eq_ok_iff
  have hspecs : (∀ spec ∈ m.matrixSpecs, spec.Square) ↔ (∀ spec ∈ m.matrices, spec.Square) ∧
      (∀ group ∈ m.arrays, ∀ spec ∈ group.members, spec.Square) ∧
      ∀ group ∈ m.collections, ∀ spec ∈ group.members, spec.Square := by
    rw [matrixSpecs, List.forall_mem_append, List.forall_mem_append, List.forall_mem_flatMap,
      List.forall_mem_flatMap]
  rw [hspecs, additions, addAll_append_eq_ok_iff]
  simp only [addAll_append_eq_ok_iff, loadMatrices, bind_eq_ok_iff, hmatrices, harrays, hcollections]
  constructor
  · rintro ⟨t₁, ⟨hm, h₁⟩, t₂, ⟨ha, h₂⟩, hc, h₃⟩
    exact ⟨⟨hm, ha, hc⟩, t₁, h₁, t₂, h₂, h₃⟩
  · rintro ⟨⟨hm, ha, hc⟩, t₁, h₁, t₂, h₂, h₃⟩
    exact ⟨t₁, ⟨hm, h₁⟩, t₂, ⟨ha, h₂⟩, hc, h₃⟩

/-- The names that have to differ: those of matrices, groups and members of collections. -/
def matrixNames (m : Model) : List String :=
  m.matrices.map MatrixSpec.name ++ (m.arrays.map GroupSpec.name ++
    m.collections.flatMap fun group => group.name :: group.members.map MatrixSpec.name)

theorem flatMap_registered (m : Model) :
    m.additions.flatMap Addition.registered = m.matrixNames := by
  have hsingle : ∀ {α : Type} (f : α → String) (xs : List α), (xs.flatMap fun x => [f x]) = xs.map f :=
    fun f xs => (List.map_eq_flatMap ..).symm
  rw [additions, matrixNames, List.flatMap_append, List.flatMap_append, List.flatMap_map,
    List.flatMap_map, List.flatMap_map]
  refine congrArg₂ _ (hsingle _ _) (congrArg₂ _ (hsingle _ _) ?_)
  refine congrArg (List.flatMap · _) (funext fun group => ?_)
  rw [GroupSpec.collection, Addition.registered, GroupSpec.declared, List.map_map]
  rfl

end Matrices

section Load

variable {m : Model} {v : Variables ο}

def tables (m : Model) : List Table := m.zones.toList ++ (m.households.toList ++ m.alternatives.toList)

/-- Nothing in the model keeps it from being loaded. -/
structure Consistent (m : Model) : Prop where
  tables : ∀ t ∈ m.tables, t.Even
  matrices : ∀ spec ∈ m.matrixSpecs, spec.Square
  names : m.matrixNames.Nodup

theorem exists_loadTable_iff {part : Option Table} :
    (∃ table, loadTable part = .ok table) ↔ ∀ t ∈ part.toList, t.Even := by
  cases part with
  | none => exact iff_of_true ⟨{}, rfl⟩ (List.forall_mem_nil _)
  | some t =>
    rw [Option.toList_some, List.forall_mem_singleton, t.even_iff, ← ofColumns_map_rows, loadTable]
    cases DataTable.ofColumns t.columns with
    | error d =>
      constructor
      · rintro ⟨table, h⟩
        cases h
      · rintro ⟨rows, h⟩
        cases h
    | ok table => exact iff_of_true ⟨table, rfl⟩ ⟨table.rows, rfl⟩

theorem load_eq_ok_iff : m.load = .ok v ↔ ∃ zones households alternatives matrices,
    loadTable m.zones = .ok zones ∧ loadTable m.households = .ok households ∧
    loadTable m.alternatives = .ok alternatives ∧ m.loadMatrices = .ok matrices ∧
    v = { scalars := .ofList m.scalars, zones, households, alternatives, matrices } := by
  rw [load]
  simp only [bind_eq_ok_iff]
  constructor
  · rintro ⟨zones, hz, households, hh, alternatives, ha, matrices, hm, ⟨⟩⟩
    exact ⟨zones, households, alternatives, matrices, hz, hh, ha, hm, rfl⟩
  · rintro ⟨zones, households, alternatives, matrices, hz, hh, ha, hm, rfl⟩
    exact ⟨zones, hz, households, hh, alternatives, ha, matrices, hm, rfl⟩

theorem exists_loadMatrices_iff : (∃ t, m.loadMatrices = .ok t) ↔
    (∀ spec ∈ m.matrixSpecs, spec.Square) ∧ m.matrixNames.Nodup := by
  simp only [loadMatrices_eq_ok_iff, Matrices.addAll_empty_eq_ok_iff, flatMap_registered,
    exists_and_left, exists_eq, and_true]

theorem exists_load_iff (ο : Type) (m : Model) :
    (∃ v : Variables ο, m.load = .ok v) ↔ m.Consistent := by
  have htables : (∀ t ∈ m.tables, t.Even) ↔ (∃ table, loadTable m.zones = .ok table) ∧
      (∃ table, loadTable m.households = .ok table) ∧ ∃ table, loadTable m.alternatives = .ok table := by
    rw [tables, List.forall_mem_append, List.forall_mem_append, exists_loadTable_iff,
      exists_loadTable_iff, exists_loadTable_iff]
  constructor
  · rintro ⟨v, h⟩
    obtain ⟨zones, households, alternatives, matrices, hz, hh, ha, hm, -⟩ := load_eq_ok_iff.mp h
    obtain ⟨hsquare, hnames⟩ := exists_loadMatrices_iff.mp ⟨matrices, hm⟩
    exact ⟨htables.mpr ⟨⟨zones, hz⟩, ⟨households, hh⟩, ⟨alternatives, ha⟩⟩, hsquare, hnames⟩
  · rintro ⟨heven, hsquare, hnames⟩
    obtain ⟨⟨zones, hz⟩, ⟨households, hh⟩, ⟨alternatives, ha⟩⟩ := htables.mp heven
    obtain ⟨matrices, hm⟩ := exists_loadMatrices_iff.mpr ⟨hsquare, hnames⟩
    exact ⟨_, load_eq_ok_iff.mpr ⟨zones, households, alternatives, matrices, hz, hh, ha, hm, rfl⟩⟩

end Load

section ReadBack

variable {m : Model} {spec : MatrixSpec} {group : GroupSpec} {t : Matrices} {e : Entry} {place : Nat}

/-- The declared value of a row and a column is read for the trip that the orientation gives. -/
def MatrixSpec.ReadsAs (spec : MatrixSpec) (orientation : Orientation)
    (read : Nat × Nat → Except EvalError Float) : Prop :=
  ∀ row column x, (spec.values[row]?.bind fun values => values[column]?) = some x →
    read (orientation.trip (row + 1) (column + 1)) = .ok x

/-- The members of a group are read by their numbers. -/
def GroupSpec.ReadsAs (group : GroupSpec) (orientation : Orientation)
    (read : Float → Nat × Nat → Except EvalError Float) : Prop :=
  ∀ k spec, group.members[k]? = some spec → ∀ subscript, Decimal.whole? subscript = some (k + 1) →
    spec.ReadsAs orientation (read subscript)

/-- The names of scalars and of the columns of each table differ, as those of a map do. -/
structure Keyed (m : Model) : Prop where
  scalars : (m.scalars.map Prod.fst).Nodup
  tables : ∀ t ∈ m.tables, t.Keyed

theorem MatrixSpec.readsAs_of_cell {orientation : Orientation} {read : Nat × Nat → Except EvalError Float}
    (h : ∀ trip, read trip =
      spec.declared.cell (orientation.cell trip.1 trip.2).1 (orientation.cell trip.1 trip.2).2) :
    spec.ReadsAs orientation read := by
  intro row column x hx
  have hcell : spec.declared.cell? (row + 1) (column + 1) = some x := hx
  rw [h, orientation.cell_trip, Matrix.cell, hcell]

theorem readsAs_of_entry (he : t.entries[place]? = some e)
    (hmatrix : e.content.single? = some spec.declared) : spec.ReadsAs e.orientation (t.read place) :=
  MatrixSpec.readsAs_of_cell fun _ => Matrices.read_of_entry he hmatrix

theorem group_readsAs_of_entry (he : t.entries[place]? = some e)
    (hmembers : e.content.members? = some group.declared) :
    group.ReadsAs e.orientation (t.readIndexed place) := by
  intro k spec hspec subscript hsubscript
  have hmember : group.declared[k]? = some spec.declared := by
    rw [GroupSpec.declared, List.getElem?_toArray, List.getElem?_map, hspec]
    rfl
  exact MatrixSpec.readsAs_of_cell fun _ =>
    Matrices.readIndexed_of_entry he hmembers hsubscript hmember

theorem readIndex?_of_entry (hnames : t.names.Nodup) (he : t.entries[place]? = some e)
    (hsingle : e.content.single?.isSome = true) : t.readIndex? e.name = some place := by
  have hindex := (Matrices.indexOf?_eq_some_iff hnames).mpr ⟨e, he, rfl⟩
  rw [Matrices.readIndex?, Matrices.matrix?, Matrices.entry?, hindex, Option.bind_some, he,
    Option.bind_some, if_pos hsingle]

theorem loadMatrices_matrix (h : m.loadMatrices = .ok t) (hspec : spec ∈ m.matrices) :
    ∃ i, t.readIndex? spec.name = some i ∧ spec.ReadsAs spec.orientation (t.read i) := by
  have hadded := (loadMatrices_eq_ok_iff.mp h).2
  have hmem : spec.addition ∈ m.additions := List.mem_append_left _ (List.mem_map_of_mem hspec)
  obtain ⟨place, he, -⟩ := Matrices.exists_place_of_addAll hadded hmem
  exact ⟨place, readIndex?_of_entry (Matrices.names_of_addAll hadded) he rfl, readsAs_of_entry he rfl⟩

theorem loadMatrices_array (h : m.loadMatrices = .ok t) (hgroup : group ∈ m.arrays) :
    ∃ i, t.indexOf? group.name = some i ∧ group.ReadsAs group.orientation (t.readIndexed i) := by
  have hadded := (loadMatrices_eq_ok_iff.mp h).2
  have hmem : group.array ∈ m.additions :=
    List.mem_append_right _ (List.mem_append_left _ (List.mem_map_of_mem hgroup))
  obtain ⟨place, he, -⟩ := Matrices.exists_place_of_addAll hadded hmem
  have hindex := (Matrices.indexOf?_eq_some_iff (Matrices.names_of_addAll hadded)).mpr ⟨_, he, rfl⟩
  exact ⟨place, hindex, group_readsAs_of_entry he rfl⟩

theorem loadMatrices_collection (h : m.loadMatrices = .ok t) (hgroup : group ∈ m.collections) :
    ∃ i, t.indexOf? group.name = some i ∧ group.ReadsAs group.orientation (t.readIndexed i) ∧
      ∀ spec ∈ group.members, ∃ j, t.readIndex? spec.name = some j ∧
        spec.ReadsAs group.orientation (t.read j) := by
  have hadded := (loadMatrices_eq_ok_iff.mp h).2
  have hnames := Matrices.names_of_addAll hadded
  have hmem : group.collection ∈ m.additions :=
    List.mem_append_right _ (List.mem_append_right _ (List.mem_map_of_mem hgroup))
  obtain ⟨place, he, hothers⟩ := Matrices.exists_place_of_addAll hadded hmem
  have hindex := (Matrices.indexOf?_eq_some_iff hnames).mpr ⟨_, he, rfl⟩
  refine ⟨place, hindex, group_readsAs_of_entry he rfl, fun spec hspec => ?_⟩
  obtain ⟨k, hk⟩ := List.mem_iff_getElem?.mp hspec
  have hmember : (group.collection.others place)[k]? =
      some ⟨spec.name, .member place (1 + k) spec.declared, group.orientation⟩ := by
    rw [GroupSpec.collection, Addition.others, getElem?_memberEntries, GroupSpec.declared,
      List.toList_toArray, List.getElem?_map, hk]
    rfl
  have he := hothers k _ hmember
  exact ⟨_, readIndex?_of_entry hnames he rfl, readsAs_of_entry he rfl⟩

end ReadBack

end Model

namespace Store.Variables

variable {ο : Type}

/-- The data of a model are found under their names in the store of their kind, the cells of a matrix in
its orientation, and those of a member of a group in the orientation of the group. -/
structure Holds (v : Variables ο) (m : Model) : Prop where
  scalars : ∀ name x, (name, x) ∈ m.scalars →
    ∃ i, v.scalars.indexOf? name = some i ∧ v.scalars.read i = .ok x
  zones : ∀ t ∈ m.zones, v.zones.Holds t.columns
  households : ∀ t ∈ m.households, v.households.Holds t.columns
  alternatives : ∀ t ∈ m.alternatives, v.alternatives.Holds t.columns
  matrices : ∀ spec ∈ m.matrices, ∃ i, v.matrices.readIndex? spec.name = some i ∧
    spec.ReadsAs spec.orientation (v.matrices.read i)
  arrays : ∀ group ∈ m.arrays, ∃ i, v.matrices.indexOf? group.name = some i ∧
    group.ReadsAs group.orientation (v.matrices.readIndexed i)
  collections : ∀ group ∈ m.collections, ∃ i, v.matrices.indexOf? group.name = some i ∧
    group.ReadsAs group.orientation (v.matrices.readIndexed i) ∧
    ∀ spec ∈ group.members, ∃ j, v.matrices.readIndex? spec.name = some j ∧
      spec.ReadsAs group.orientation (v.matrices.read j)

theorem holds_of_load {m : Model} {v : Variables ο} (hkeyed : m.Keyed) (h : m.load = .ok v) :
    v.Holds m := by
  obtain ⟨zones, households, alternatives, matrices, hz, hh, ha, hm, rfl⟩ := Model.load_eq_ok_iff.mp h
  have htable : ∀ {part : Option Model.Table} {table : DataTable}, Model.loadTable part = .ok table →
      (∀ t ∈ part, t.Keyed) → ∀ t ∈ part, table.Holds t.columns := by
    rintro _ table hload hpart t ⟨⟩
    exact DataTable.holds_ofColumns (hpart t rfl) hload
  have htables := hkeyed.tables
  rw [Model.tables, List.forall_mem_append, List.forall_mem_append] at htables
  simp only [Option.mem_toList] at htables
  obtain ⟨hzones, hhouseholds, halternatives⟩ := htables
  exact {
    scalars := fun name x hmem => Scalars.read_ofList hkeyed.scalars hmem
    zones := htable hz hzones
    households := htable hh hhouseholds
    alternatives := htable ha halternatives
    matrices := fun spec hspec => Model.loadMatrices_matrix hm hspec
    arrays := fun group hgroup => Model.loadMatrices_array hm hgroup
    collections := fun group hgroup => Model.loadMatrices_collection hm hgroup }

end Store.Variables

namespace Model

/-- A model loads exactly if its tables have columns of equal lengths, its matrices are square and the
names of matrices, groups and members of collections differ; and then every value that it declares is
read from where it was declared. -/
theorem load_iff_consistent (ο : Type) (m : Model) :
    ((∃ v : Variables ο, m.load = .ok v) ↔ m.Consistent) ∧
      (m.Keyed → ∀ v : Variables ο, m.load = .ok v → v.Holds m) :=
  ⟨exists_load_iff ο m, fun hkeyed _ h => Variables.holds_of_load hkeyed h⟩

section Grouped

/-- A matrix array whose only member has an orientation that differs from the one of the array. -/
def grouped : Model where
  scalars := [("k", 2.5)]
  zones := some ⟨[("jobs", #[10.0, 20.0]), ("pop", #[100.0, 200.0])]⟩
  matrices := [⟨"dist", .byDestination, #[#[0.0, 5.0], #[6.0, 0.0]]⟩]
  arrays := [⟨"ivt", .byOrigin, [⟨"am", .byDestination, #[#[1.0, 2.0], #[3.0, 4.0]]⟩]⟩]

theorem consistent_grouped : grouped.Consistent := ⟨by decide, by decide, by decide⟩

theorem keyed_grouped : grouped.Keyed := ⟨by decide, by decide⟩

/-- A scalar, a matrix and a member of an array, each read from where it was declared. -/
theorem load_iff_consistent_grouped : ∃ (v : Variables Unit) (i j k : Nat), grouped.load = .ok v ∧
    v.scalars.indexOf? "k" = some i ∧ v.scalars.read i = .ok 2.5 ∧
    v.matrices.readIndex? "dist" = some j ∧ v.matrices.read j (1, 2) = .ok 6.0 ∧
    v.matrices.indexOf? "ivt" = some k ∧ v.matrices.readIndexed k 1.0 (1, 2) = .ok 2.0 := by
  obtain ⟨hload, hholds⟩ := load_iff_consistent Unit grouped
  obtain ⟨v, hv⟩ := hload.mpr consistent_grouped
  have h := hholds keyed_grouped v hv
  obtain ⟨i, hi, hscalar⟩ := h.scalars _ _ List.mem_cons_self
  obtain ⟨j, hj, hmatrix⟩ := h.matrices _ List.mem_cons_self
  obtain ⟨k, hk, harray⟩ := h.arrays _ List.mem_cons_self
  exact ⟨v, i, j, k, hv, hi, hscalar, hj, hmatrix 1 0 6.0 rfl, hk,
    harray 0 _ rfl 1.0 (by decide) 0 1 2.0 rfl⟩

/-- A member of an array is not read in its own orientation. -/
theorem not_readsAs_own_orientation : ¬ ∀ (m : Model) (v : Variables Unit), m.Keyed → m.load = .ok v →
    ∀ group ∈ m.arrays, ∃ i, v.matrices.indexOf? group.name = some i ∧
      ∀ k spec, group.members[k]? = some spec → ∀ subscript, Decimal.whole? subscript = some (k + 1) →
        spec.ReadsAs spec.orientation (v.matrices.readIndexed i subscript) := by
  intro h
  obtain ⟨v, hv⟩ := (exists_load_iff Unit grouped).mpr consistent_grouped
  obtain ⟨i, hi, hown⟩ := h grouped v keyed_grouped hv _ List.mem_cons_self
  obtain ⟨j, hj, hgroup⟩ := (Variables.holds_of_load keyed_grouped hv).arrays _ List.mem_cons_self
  obtain rfl : j = i := Option.some.inj (hj.symm.trans hi)
  have hthree : v.matrices.readIndexed j 1.0 (1, 2) = .ok 3.0 :=
    hown 0 _ rfl 1.0 (by decide) 1 0 3.0 rfl
  have htwo : v.matrices.readIndexed j 1.0 (1, 2) = .ok 2.0 :=
    hgroup 0 _ rfl 1.0 (by decide) 0 1 2.0 rfl
  have heq : (3.0 : Float) = 2.0 := Except.ok.inj (hthree.symm.trans htwo)
  exact absurd (congrArg (· == (2.0 : Float)) heq) (by decide)

end Grouped

end Model

end ChoiceModel
