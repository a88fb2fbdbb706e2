import ChoiceModel.Proofs.Fallible
import ChoiceModel.Proofs.Store.Names
import ChoiceModel.Store.DataTable

/-! Tables with their names and their columns side by side. However columns are added, allocated and
written, by calls that succeed or fail, every name has one column and every column one value a row. -/

namespace ChoiceModel.Store

open Expression (EvalError)
open Model (Defect)

namespace DataTable

/-- What can happen to a table once it exists. -/
inductive Change where
  | add (name : String) (values : Array Float)
  | assign (name : String)
  | write (column row : Nat) (x : Float)

/-- Answers with the column, and leaves the table as it is if it fails. -/
def change (t : DataTable) : Change → Except (Defect ⊕ EvalError) Nat × DataTable
  | .add name values =>
    match t.addColumn name values with
    | .ok (i, u) => (.ok i, u)
    | .error e => (.error (.inl e), t)
  | .assign name =>
    let (i, u) := t.allocate name
    (.ok i, u)
  | .write column row x =>
    match t.write column row x with
    | .ok u => (.ok column, u)
    | .error e => (.error (.inr e), t)

def run (t : DataTable) (changes : List Change) : DataTable :=
  changes.foldl (fun t c => (t.change c).2) t

end DataTable

structure SplitTable where
  names : Array String := #[]
  columns : Array (Array Float) := #[]
  rows : Nat := 0

namespace SplitTable

open DataTable (Change)

def indexOf? (t : SplitTable) (name : String) : Option Nat := t.names.findIdx? (· == name)

/-- The number of rows is taken over before a name is looked for. -/
def addColumn (t : SplitTable) (name : String) (values : Array Float) :
    Except Defect Nat × SplitTable :=
  if !t.columns.isEmpty && values.size != t.rows then
    (.error (.columnLength name values.size t.rows), t)
  else
    let t := { t with rows := values.size }
    match t.indexOf? name with
    | some i => (.ok i, { t with columns := t.columns.setIfInBounds i values })
    | none =>
      (.ok t.columns.size,
        { t with names := t.names.push name, columns := t.columns.push values })

def addNext (t : SplitTable) (column : String × Array Float) : Except Defect SplitTable :=
  let (r, u) := t.addColumn column.1 column.2
  r.map fun _ => u

def ofColumns (columns : List (String × Array Float)) : Except Defect SplitTable :=
  columns.foldlM addNext {}

def allocate (t : SplitTable) (name : String) : Nat × SplitTable :=
  match t.indexOf? name with
  | some i => (i, t)
  | none =>
    (t.columns.size,
      { t with names := t.names.push name, columns := t.columns.push (.replicate t.rows 0.0) })

def outOfRange (t : SplitTable) (column row : Nat) : EvalError :=
  .cell (t.names[column]?.getD "?") (.row row t.rows)

def read (t : SplitTable) (column row : Nat) : Except EvalError Float :=
  match t.columns[column]? with
  | none => .error (.unbound column)
  | some values =>
    match values[row]? with
    | some x => .ok x
    | none => .error (t.outOfRange column row)

def write (t : SplitTable) (column row : Nat) (x : Float) : Except EvalError Unit × SplitTable :=
  match t.columns[column]? with
  | none => (.error (.unbound column), t)
  | some values =>
    if row < values.size then
      (.ok (), { t with columns := t.columns.setIfInBounds column (values.setIfInBounds row x) })
    else (.error (t.outOfRange column row), t)

def change (t : SplitTable) : Change → Except (Defect ⊕ EvalError) Nat × SplitTable
  | .add name values =>
    let (r, u) := t.addColumn name values
    (r.mapError .inl, u)
  | .assign name =>
    let (i, u) := t.allocate name
    (.ok i, u)
  | .write column row x =>
    let (r, u) := t.write column row x
    ((r.map fun _ => column).mapError .inr, u)

def run (t : SplitTable) (changes : List Change) : SplitTable :=
  changes.foldl (fun t c => (t.change c).2) t

def table (t : SplitTable) : DataTable := ⟨t.names.zip t.columns, t.rows⟩

/-- Every name has one column, and every column one value a row. -/
structure Rectangular (t : SplitTable) : Prop where
  size : t.names.size = t.columns.size
  nodup : t.names.toList.Nodup
  rows : ∀ values ∈ t.columns, values.size = t.rows

variable {t u : SplitTable} {name : String} {values : Array Float} {i column row : Nat} {x : Float}

namespace Rectangular

theorem empty : Rectangular {} := ⟨rfl, .nil, fun _ h => nomatch h⟩

/-- A column of a new name, of the length of the others. -/
theorem push (h : t.Rectangular) (hnone : t.indexOf? name = none) (rows : Nat)
    (hrows : ∀ values ∈ t.columns, values.size = rows) (hvalues : values.size = rows) :
    Rectangular ⟨t.names.push name, t.columns.push values, rows⟩ := by
  refine ⟨by simp [h.size], ?_, fun other hother => ?_⟩
  · rw [Array.toList_push]
    refine List.nodup_append.mpr ⟨h.nodup, List.nodup_singleton name, fun a ha b hb => ?_⟩
    rw [List.mem_singleton.mp hb]
    have hother := Array.findIdx?_eq_none_iff.mp hnone a (Array.mem_toList_iff.mp ha)
    exact beq_eq_false_iff_ne.mp hother
  · rcases Array.mem_push.mp hother with hother | rfl
    · exact hrows other hother
    · exact hvalues

/-- Another column in the place of one, of the length of the others. -/
theorem replace (h : t.Rectangular) (i rows : Nat)
    (hrows : ∀ values ∈ t.columns, values.size = rows) (hvalues : values.size = rows) :
    Rectangular ⟨t.names, t.columns.setIfInBounds i values, rows⟩ := by
  refine ⟨by simp [h.size], h.nodup, fun other hother => ?_⟩
  rcases Array.mem_or_eq_of_mem_setIfInBounds hother with hother | rfl
  · exact hrows other hother
  · exact hvalues

theorem addColumn (h : t.Rectangular) (name : String) (values : Array Float) :
    (t.addColumn name values).2.Rectangular := by
  unfold SplitTable.addColumn
  split
  · exact h
  · rename_i hfits
    have hrows : ∀ other ∈ t.columns, other.size = values.size := by
      intro other hother
      have hne : t.columns.isEmpty = false := by
        rw [Array.isEmpty_eq_false_iff]
        exact Array.ne_empty_of_mem hother
      rw [hne, Bool.not_false, Bool.true_and, bne_iff_ne, not_not] at hfits
      rw [hfits]
      exact h.rows other hother
    dsimp only
    split
    · exact h.replace _ _ hrows rfl
    · rename_i hnone
      exact h.push hnone _ hrows rfl

theorem allocate (h : t.Rectangular) (name : String) : (t.allocate name).2.Rectangular := by
  unfold SplitTable.allocate
  split
  · exact h
  · rename_i hnone
    exact h.push hnone _ h.rows Array.size_replicate

theorem write (h : t.Rectangular) (column row : Nat) (x : Float) :
    (t.write column row x).2.Rectangular := by
  unfold SplitTable.write
  split
  · exact h
  · rename_i values hcolumn
    split
    · refine h.replace column t.rows h.rows ?_
      rw [Array.size_setIfInBounds]
      exact h.rows values (Array.mem_of_getElem? hcolumn)
    · exact h

theorem change (h : t.Rectangular) (c : Change) : (t.change c).2.Rectangular := by
  cases c with
  | add name values => exact h.addColumn name values
  | assign name => exact h.allocate name
  | write column row x => exact h.write column row x

theorem run (h : t.Rectangular) (changes : List Change) : (t.run changes).Rectangular := by
  induction changes generalizing t with
  | nil => exact h
  | cons c changes ih => exact ih (h.change c)

theorem isOk_read (h : t.Rectangular) :
    (∃ x, t.read column row = .ok x) ↔ column < t.columns.size ∧ row < t.rows := by
  unfold read
  by_cases hcolumn : column < t.columns.size
  · have hsize : t.columns[column].size = t.rows := h.rows _ (Array.getElem_mem hcolumn)
    rw [Array.getElem?_eq_getElem hcolumn]
    by_cases hrow : row < t.rows
    · simp [hcolumn, hrow, hsize]
    · simp [hcolumn, hrow, hsize]
  · simp [hcolumn]

end Rectangular

/-! ### Places -/

theorem indexOf?_push (h : t.indexOf? name = some i) (other : String)
    (columns : Array (Array Float)) (rows : Nat) :
    indexOf? ⟨t.names.push other, columns, rows⟩ name = some i := by
  rw [indexOf?, Array.findIdx?_push, ← indexOf?, h, Option.some_or]

theorem indexOf?_change_of_some (c : Change) (h : t.indexOf? name = some i) :
    (t.change c).2.indexOf? name = some i := by
  cases c with
  | add n values =>
    simp only [change, addColumn]
    split
    · exact h
    · split
      · exact h
      · exact indexOf?_push h _ _ _
  | assign n =>
    simp only [change, allocate]
    split
    · exact h
    · exact indexOf?_push h _ _ _
  | write column row x =>
    simp only [change, write]
    split
    · exact h
    · split
      · exact h
      · exact h

/-- An index outlasts whatever happens later. -/
theorem indexOf?_run_of_some (changes : List Change) (h : t.indexOf? name = some i) :
    (t.run changes).indexOf? name = some i := by
  induction changes generalizing t with
  | nil => exact h
  | cons c changes ih => exact ih (indexOf?_change_of_some c h)

theorem change_eq_of_error {c : Change} {e : Defect ⊕ EvalError} (h : (t.change c).1 = .error e) :
    (t.change c).2 = t := by
  cases c with
  | add n values =>
    simp only [change, addColumn] at h ⊢
    split at h
    · rename_i hsize
      rw [if_pos hsize]
    · split at h
      · cases h
      · cases h
  | assign n => cases h
  | write column row x =>
    simp only [change, write] at h ⊢
    split at h
    · rfl
    · split at h
      · cases h
      · rename_i hrow
        rw [if_neg hrow]

/-! ### The same table with each column under its name -/

theorem indexOf?_table (h : t.Rectangular) (name : String) :
    t.table.indexOf? name = t.indexOf? name :=
  findIdx?_zip h.size name

theorem outOfRange_table (h : t.Rectangular) (column row : Nat) :
    t.table.outOfRange column row = t.outOfRange column row := by
  have hname : t.table.name? column = t.names[column]? := by
    rw [DataTable.name?, table, ← Array.getElem?_map, Array.map_fst_zip (Nat.le_of_eq h.size)]
  rw [DataTable.outOfRange, hname, outOfRange, table]

/-- A column of a table, under its name. -/
theorem getElem?_table (h : t.Rectangular) (hcolumn : t.columns[column]? = some values) :
    ∃ name, t.table.columns[column]? = some (name, values) := by
  obtain ⟨hlt, -⟩ := Array.getElem?_eq_some_iff.mp hcolumn
  rw [← h.size] at hlt
  exact ⟨t.names[column], Array.getElem?_zip_eq_some.mpr ⟨Array.getElem?_eq_getElem hlt, hcolumn⟩⟩

theorem size_table (h : t.Rectangular) : t.table.columns.size = t.columns.size := by
  simp [table, h.size]

theorem table_addColumn (h : t.Rectangular) (name : String) (values : Array Float) :
    t.table.addColumn name values =
      (t.addColumn name values).1.map fun i => (i, (t.addColumn name values).2.table) := by
  have hempty : t.table.columns.isEmpty = t.columns.isEmpty := by
    rw [Array.isEmpty, Array.isEmpty, size_table h]
  have hrows : t.table.rows = t.rows := rfl
  rw [DataTable.addColumn, hempty, hrows, indexOf?_table h, size_table h, addColumn]
  split
  · rfl
  · have hindex : indexOf? ⟨t.names, t.columns, values.size⟩ name = t.indexOf? name := rfl
    simp only [hindex]
    cases t.indexOf? name with
    | some i => simp only [Except.map, table, zip_setIfInBounds]
    | none => simp only [Except.map, table, zip_push h.size]

theorem table_allocate (h : t.Rectangular) (name : String) :
    t.table.allocate name = ((t.allocate name).1, (t.allocate name).2.table) := by
  rw [DataTable.allocate, indexOf?_table h, allocate, size_table h]
  cases t.indexOf? name with
  | some i => rfl
  | none =>
    simp only [table, zip_push h.size]

theorem getElem?_table_eq_none (h : t.Rectangular) (hcolumn : t.columns[column]? = none) :
    t.table.columns[column]? = none := by
  rw [Array.getElem?_eq_none_iff] at hcolumn ⊢
  rw [size_table h]
  exact hcolumn

theorem table_read (h : t.Rectangular) (column row : Nat) :
    t.table.read column row = t.read column row := by
  rw [DataTable.read, read]
  cases hcolumn : t.columns[column]? with
  | none => rw [getElem?_table_eq_none h hcolumn]
  | some values =>
    obtain ⟨name, hname⟩ := getElem?_table h hcolumn
    cases hrow : values[row]? with
    | none => simp only [hname, hrow, outOfRange_table h]
    | some x => simp only [hname, hrow]

theorem table_write (h : t.Rectangular) (column row : Nat) (x : Float) :
    t.table.write column row x =
      (t.write column row x).1.map fun _ => (t.write column row x).2.table := by
  rw [DataTable.write, write]
  cases hcolumn : t.columns[column]? with
  | none =>
    rw [getElem?_table_eq_none h hcolumn]
    rfl
  | some values =>
    obtain ⟨name, hname⟩ := getElem?_table h hcolumn
    rw [hname, outOfRange_table h]
    by_cases hrow : row < values.size
    · simp only [if_pos hrow, Except.map]
      rw [setIfInBounds_eq_modify hname]
      simp only [table, zip_setIfInBounds]
    · simp only [if_neg hrow, Except.map]

theorem table_change (h : t.Rectangular) (c : Change) :
    t.table.change c = ((t.change c).1, (t.change c).2.table) := by
  have hfailed := fun e => change_eq_of_error (t := t) (c := c) (e := e)
  cases c with
  | add name values =>
    rw [DataTable.change, table_addColumn h]
    simp only [change] at hfailed ⊢
    cases hr : (t.addColumn name values).1 with
    | ok i => rfl
    | error e =>
      rw [hfailed (.inl e) (by rw [hr]; rfl)]
      rfl
  | assign name =>
    rw [DataTable.change, table_allocate h]
    rfl
  | write column row x =>
    rw [DataTable.change, table_write h]
    simp only [change] at hfailed ⊢
    cases hr : (t.write column row x).1 with
    | ok _ => rfl
    | error e =>
      rw [hfailed (.inr e) (by rw [hr]; rfl)]
      rfl

theorem table_run (h : t.Rectangular) (changes : List Change) :
    t.table.run changes = (t.run changes).table := by
  induction changes generalizing t with
  | nil => rfl
  | cons c changes ih =>
    rw [DataTable.run, List.foldl_cons, table_change h]
    exact ih (h.change c)

/-- Columns one after the other make the same table either way, or fail alike. -/
theorem foldlM_table (h : t.Rectangular) (columns : List (String × Array Float)) :
    (columns.foldlM addNext t).map table =
      columns.foldlM (fun u column => (u.addColumn column.1 column.2).map Prod.snd) t.table := by
  induction columns generalizing t with
  | nil => rfl
  | cons column columns ih =>
    have hnext := h.addColumn column.1 column.2
    rw [List.foldlM_cons, List.foldlM_cons, table_addColumn h, addNext]
    rcases hadd : t.addColumn column.1 column.2 with ⟨r, u⟩
    rw [hadd] at hnext
    cases r with
    | ok i => exact ih hnext
    | error e => rfl

theorem table_ofColumns (columns : List (String × Array Float)) :
    (ofColumns columns).map table = DataTable.ofColumns columns := by
  have hempty : ({} : SplitTable).table = {} := by simp [table]
  rw [ofColumns, foldlM_table .empty, hempty]
  rfl

theorem Rectangular.foldlM (h : t.Rectangular) {columns : List (String × Array Float)}
    (hu : columns.foldlM addNext t = .ok u) : u.Rectangular := by
  induction columns generalizing t with
  | nil =>
    cases hu
    exact h
  | cons column columns ih =>
    obtain ⟨next, hnext, hu⟩ := exists_of_bind_eq_ok hu
    refine ih ?_ hu
    have hadded := h.addColumn column.1 column.2
    unfold addNext at hnext
    rcases hadd : t.addColumn column.1 column.2 with ⟨r, w⟩
    rw [hadd] at hnext hadded
    cases r with
    | ok i =>
      cases hnext
      exact hadded
    | error e => cases hnext

/-- Whatever is added, assigned or written to a table that has been made of columns, in whatever order
and with whatever failures, there is one column for each name and one value for each row of a column. -/
theorem rectangular_run {columns : List (String × Array Float)} {start : SplitTable}
    (h : ofColumns columns = .ok start) (changes : List Change) :
    let t := start.run changes
    t.names.size = t.columns.size ∧ t.names.toList.Nodup ∧
    (∀ values ∈ t.columns, values.size = t.rows) ∧
    (∀ column row, (∃ x, t.read column row = .ok x) ↔ column < t.columns.size ∧ row < t.rows) ∧
    (∀ later name i, t.indexOf? name = some i → (t.run later).indexOf? name = some i) ∧
    (∀ c e, (t.change c).1 = .error e → (t.change c).2 = t) ∧
    (∃ u, DataTable.ofColumns columns = .ok u ∧ t.table = u.run changes) ∧
    (∀ c, ((t.change c).1, (t.change c).2.table) = t.table.change c) ∧
    (∀ name, t.indexOf? name = t.table.indexOf? name) ∧
    ∀ column row, t.read column row = t.table.read column row := by
  intro t
  have hstart := Rectangular.empty.foldlM h
  have hrect : t.Rectangular := hstart.run changes
  refine ⟨hrect.size, hrect.nodup, hrect.rows, fun _ _ => hrect.isOk_read,
    fun later _ _ => indexOf?_run_of_some later, fun _ _ => change_eq_of_error,
    ⟨start.table, ?_, (table_run hstart changes).symm⟩, fun c => (table_change hrect c).symm,
    fun name => (indexOf?_table hrect name).symm, fun _ _ => (table_read hrect _ _).symm⟩
  rw [← table_ofColumns, h]
  rfl

/-- A column of two rows, one more that an assignment allocates, and one that is too long. -/
theorem rectangular_run_zones :
    let changes : List Change := [.assign "size", .add "area" #[1.0, 2.0, 3.0], .write 1 1 5.0]
    ∃ start, ofColumns [("income", #[30.0, 55.0])] = .ok start ∧
      ∀ column row, (∃ x, (start.run changes).read column row = .ok x) ↔
        column < (start.run changes).columns.size ∧ row < (start.run changes).rows := by
  intro changes
  have hstart : ofColumns [("income", #[30.0, 55.0])] =
      .ok ⟨#["income"], #[#[30.0, 55.0]], 2⟩ := by
    simp [ofColumns, addNext, addColumn, indexOf?, Except.map, pure, Except.pure, bind, Except.bind]
  exact ⟨_, hstart, (rectangular_run hstart changes).2.2.2.1⟩

end SplitTable

end ChoiceModel.Store
