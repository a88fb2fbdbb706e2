import ChoiceModel.Model.Valid
import ChoiceModel.Proofs.Model.Flow

/-! The columns of a table, whose lengths are checked twice: as a file is read, and again as the columns
are added to a table one by one. Both checks come to the same, and what passes them is in the table as it
was declared. -/

namespace ChoiceModel

open Store
open Model (Defect checkColumns)

namespace Store.DataTable

variable {t t' : DataTable} {name : String} {values : Array Float} {columns : List (String × Array Float)}

/-- The length that a further column has to have. -/
def length? (t : DataTable) : Option Nat := if t.columns.isEmpty then none else some t.rows

/-- A column is added if its length is the one of the columns before it. -/
theorem addColumn_cases (t : DataTable) (name : String) (values : Array Float) :
    ((∀ rows ∈ t.length?, rows = values.size) ∧ ∃ i t', t.addColumn name values = .ok (i, t') ∧
      t'.length? = some values.size ∧ t'.rows = values.size ∧
      (t.indexOf? name = none → t'.columns = t.columns.push (name, values))) ∨
    ∃ rows, t.length? = some rows ∧ rows ≠ values.size ∧
      t.addColumn name values = .error (.columnLength name values.size rows) := by
  unfold length? addColumn
  by_cases hlength : (!t.columns.isEmpty && values.size != t.rows) = true
  · obtain ⟨hcolumns, hrows⟩ := Bool.and_eq_true_iff.mp hlength
    refine .inr ⟨t.rows, if_neg (by simpa using hcolumns), Ne.symm (bne_iff_ne.mp hrows), ?_⟩
    rw [if_pos hlength]
  · refine .inl ⟨fun rows hrows => ?_, ?_⟩
    · split at hrows
      · cases hrows
      · rename_i hcolumns
        cases hrows
        rw [Bool.eq_false_iff.mpr hcolumns, Bool.not_false, Bool.true_and, bne_iff_ne, not_not] at hlength
        exact hlength.symm
    · rw [if_neg hlength]
      cases hindex : t.indexOf? name with
      | none => exact ⟨_, _, rfl, by simp, rfl, fun _ => rfl⟩
      | some i =>
        obtain ⟨a, ha⟩ := getElem?_of_findIdx? hindex
        obtain ⟨hlt, -⟩ := Array.getElem?_eq_some_iff.mp ha
        refine ⟨_, _, rfl, if_neg ?_, rfl, fun h => nomatch h⟩
        rw [Array.isEmpty_iff_size_eq_zero, Array.size_modify]
        omega

def addColumns (t : DataTable) (columns : List (String × Array Float)) : Except Defect DataTable :=
  columns.foldlM (fun t column => (t.addColumn column.1 column.2).map Prod.snd) t

/-- The columns of a list are added up to the first one that the check refuses. -/
theorem addColumns_map_rows (ht : t.rows = t.length?.getD 0) : (t.addColumns columns).map rows =
    (checkColumns t.length? columns).map fun rows => rows.getD 0 := by
  induction columns generalizing t with
  | nil => exact congrArg Except.ok ht
  | cons column columns ih =>
    obtain ⟨name, values⟩ := column
    rw [addColumns, List.foldlM_cons]
    obtain ⟨hlength, i, t', hadd, hlength', hrows, -⟩ | ⟨rows, hlength, hne, hadd⟩ :=
      t.addColumn_cases name values
    · have hcheck : checkColumns t.length? ((name, values) :: columns) =
          checkColumns t'.length? columns := by
        rw [hlength']
        cases h : t.length? with
        | none => rfl
        | some rows => rw [hlength rows h, checkColumns, if_pos (beq_self_eq_true _)]
      rw [hcheck, hadd]
      exact ih (by rw [hrows, hlength']; rfl)
    · rw [hlength, checkColumns, if_neg (by simpa using hne), hadd]
      rfl

theorem columns_addColumns (hnames : ((t.columns.toList ++ columns).map Prod.fst).Nodup)
    (h : t.addColumns columns = .ok t') : t'.columns = t.columns ++ columns.toArray := by
  induction columns generalizing t with
  | nil =>
    cases h
    exact Array.append_empty.symm
  | cons column columns ih =>
    obtain ⟨name, values⟩ := column
    rw [addColumns, List.foldlM_cons] at h
    obtain ⟨-, i, u, hadd, -, -, hpush⟩ | ⟨rows, -, -, hadd⟩ := t.addColumn_cases name values
    · have hfree : t.indexOf? name = none := findIdx?_eq_none_of_nodup hnames
      rw [hadd] at h
      have hcolumns := hpush hfree
      rw [ih (by rw [hcolumns]; simpa using hnames) h, hcolumns]
      simp
    · rw [hadd] at h
      cases h

/-- Every column is found under its name, as a whole and row by row. -/
def Holds (t : DataTable) (columns : List (String × Array Float)) : Prop :=
  ∀ name values, (name, values) ∈ columns → t.column? name = some values ∧
    ∃ i, t.indexOf? name = some i ∧ ∀ row x, values[row]? = some x → t.read i row = .ok x

theorem holds_ofColumns (hnames : (columns.map Prod.fst).Nodup) (h : ofColumns columns = .ok t) :
    t.Holds columns := by
  have hcolumns : t.columns = columns.toArray := by
    rw [columns_addColumns (t := {}) hnames h]
    exact Array.empty_append
  intro name values hmem
  obtain ⟨i, hi⟩ := List.mem_iff_getElem?.mp hmem
  have hplace : t.columns[i]? = some (name, values) := by
    rw [hcolumns, List.getElem?_toArray]
    exact hi
  have hindex : t.indexOf? name = some i := by
    refine (findIdx?_eq_some_iff_of_nodup ?_).mpr ⟨_, hplace, rfl⟩
    rw [hcolumns]
    exact hnames
  refine ⟨?_, i, hindex, fun row x hx => ?_⟩
  · rw [column?, hindex, Option.bind_some, hplace]
    rfl
  · simp only [read, hplace, hx]

end Store.DataTable

namespace Model

variable {ο : Type}

/-- The columns have equal lengths. -/
def Table.Even (t : Table) : Prop := ∀ c ∈ t.columns, ∀ c' ∈ t.columns, c.2.size = c'.2.size

instance (t : Table) : Decidable t.Even :=
  inferInstanceAs (Decidable (∀ c ∈ t.columns, ∀ c' ∈ t.columns, c.2.size = c'.2.size))

/-- The names of the columns differ, as those of a map do. -/
def Table.Keyed (t : Table) : Prop := (t.columns.map Prod.fst).Nodup

instance (t : Table) : Decidable t.Keyed := inferInstanceAs (Decidable (List.Nodup _))

theorem checkColumns_cases (rows : Nat) (columns : List (String × Array Float)) :
    ((∀ column ∈ columns, column.2.size = rows) ∧
      checkColumns (some rows) columns = .ok (some rows)) ∨
    ∃ before name values after, columns = before ++ (name, values) :: after ∧
      (∀ column ∈ before, column.2.size = rows) ∧ values.size ≠ rows ∧
      checkColumns (some rows) columns = .error (.columnLength name values.size rows) := by
  induction columns with
  | nil => exact .inl ⟨fun _ h => (nomatch h), rfl⟩
  | cons column columns ih =>
    obtain ⟨name, values⟩ := column
    rw [checkColumns]
    by_cases hsize : values.size = rows
    · rw [if_pos (beq_iff_eq.mpr hsize.symm)]
      obtain ⟨hall, hcheck⟩ | ⟨before, name', values', after, rfl, hbefore, hrest⟩ := ih
      · exact .inl ⟨List.forall_mem_cons.mpr ⟨hsize, hall⟩, hcheck⟩
      · exact .inr ⟨(name, values) :: before, name', values', after, rfl,
          List.forall_mem_cons.mpr ⟨hsize, hbefore⟩, hrest⟩
    · rw [if_neg fun h => hsize (beq_iff_eq.mp h).symm]
      exact .inr ⟨[], name, values, columns, rfl, fun _ h => (nomatch h), hsize, rfl⟩

/-- The first column that is not as long as the one in front is refused. -/
theorem Table.rowCount_cases (t : Table) : (t.Even ∧ ∃ rows, t.rowCount = .ok rows) ∨
    ∃ first before name values after, t.columns = first :: before ++ (name, values) :: after ∧
      (∀ column ∈ first :: before, column.2.size = first.2.size) ∧ values.size ≠ first.2.size ∧
      t.rowCount = .error (.columnLength name values.size first.2.size) := by
  unfold Even rowCount
  rcases t.columns with _ | ⟨⟨name, values⟩, columns⟩
  · exact .inl ⟨fun _ h => (nomatch h), 0, rfl⟩
  · rw [checkColumns]
    obtain ⟨hall, hcheck⟩ | ⟨before, name', values', after, rfl, hbefore, hne, hcheck⟩ :=
      checkColumns_cases values.size columns
    · refine .inl ⟨?_, values.size, by rw [hcheck]; rfl⟩
      have hall : ∀ column ∈ (name, values) :: columns, column.2.size = values.size :=
        List.forall_mem_cons.mpr ⟨rfl, hall⟩
      exact fun c hc c' hc' => (hall c hc).trans (hall c' hc').symm
    · exact .inr ⟨(name, values), before, name', values', after, rfl,
        List.forall_mem_cons.mpr ⟨rfl, hbefore⟩, hne, by rw [hcheck]; rfl⟩

theorem Table.even_iff (t : Table) : t.Even ↔ ∃ rows, t.rowCount = .ok rows := by
  obtain ⟨heven, hrows⟩ | ⟨first, before, name, values, after, hcolumns, -, hne, herror⟩ :=
    t.rowCount_cases
  · exact iff_of_true heven hrows
  · refine iff_of_false (fun heven => hne (heven (name, values) ?_ first ?_)) fun ⟨rows, h⟩ => ?_
    · rw [hcolumns]
      exact List.mem_append_right _ List.mem_cons_self
    · rw [hcolumns]
      exact List.mem_cons_self
    · rw [herror] at h
      cases h

theorem ofColumns_map_rows (t : Table) :
    (DataTable.ofColumns t.columns).map DataTable.rows = t.rowCount :=
  DataTable.addColumns_map_rows (t := {}) rfl

/-- A table whose lengths have been checked loads. -/
theorem loadTable_of_check {part : String} {t : Option Table} (h : checkTable part t = .ok ()) :
    ∃ table, loadTable t = .ok table := by
  cases t with
  | none => exact ⟨{}, rfl⟩
  | some t =>
    rw [checkTable, ← ofColumns_map_rows] at h
    rw [loadTable]
    cases hload : DataTable.ofColumns t.columns with
    | error d =>
      rw [hload] at h
      cases h
    | ok table => exact ⟨table, rfl⟩

theorem ofColumns_eq_error {t : Table} {d : Defect} (h : t.rowCount = .error d) :
    DataTable.ofColumns t.columns = .error d := by
  rw [← ofColumns_map_rows] at h
  cases hload : DataTable.ofColumns t.columns with
  | error d' =>
    rw [hload] at h
    cases h
    rfl
  | ok table =>
    rw [hload] at h
    cases h

theorem load_of_check {m : Model} (h : m.check = .ok ()) :
    ∃ zones households alternatives, (m.load : Except Defect (Variables ο)) =
      m.loadMatrices.map fun matrices =>
        { scalars := .ofList m.scalars, zones, households, alternatives, matrices } := by
  obtain ⟨_, hzones, h⟩ := exists_of_bind_eq_ok h
  obtain ⟨_, hhouseholds, h⟩ := exists_of_bind_eq_ok h
  obtain ⟨_, halternatives, h⟩ := exists_of_bind_eq_ok h
  obtain ⟨zones, hzones⟩ := loadTable_of_check hzones
  obtain ⟨households, hhouseholds⟩ := loadTable_of_check hhouseholds
  obtain ⟨alternatives, halternatives⟩ := loadTable_of_check halternatives
  refine ⟨zones, households, alternatives, ?_⟩
  rw [load, hzones, hhouseholds, halternatives]
  cases m.loadMatrices with
  | error d => rfl
  | ok matrices => rfl

/-- A table is built exactly if the check of its lengths passes, with as many rows, and what the check
finds fault with is also what the building stops at: the first column that is not as long as the one in
front. The tables of a model that was read from a file are built, so that only its matrices can keep it
from being loaded. -/
theorem ofColumns_eq_rowCount (ο : Type) (t : Table) :
    (DataTable.ofColumns t.columns).map DataTable.rows = t.rowCount ∧
    (t.Keyed → ∀ table, DataTable.ofColumns t.columns = .ok table → table.Holds t.columns) ∧
    (∀ d, t.rowCount = .error d → DataTable.ofColumns t.columns = .error d ∧
      ∃ first before name values after, t.columns = first :: before ++ (name, values) :: after ∧
        (∀ column ∈ first :: before, column.2.size = first.2.size) ∧
        values.size ≠ first.2.size ∧ d = .columnLength name values.size first.2.size) ∧
    ∀ text m, parse text = .ok m → ∃ zones households alternatives,
      (m.load : Except Defect (Variables ο)) = m.loadMatrices.map fun matrices =>
        { scalars := .ofList m.scalars, zones, households, alternatives, matrices } := by
  refine ⟨ofColumns_map_rows t, fun hkeyed table h => DataTable.holds_ofColumns hkeyed h,
    fun d h => ⟨ofColumns_eq_error h, ?_⟩, fun text m h => load_of_check (Checked.of_parse h).check⟩
  obtain ⟨-, rows, hrows⟩ |
      ⟨first, before, name, values, after, hcolumns, hbefore, hne, herror⟩ := t.rowCount_cases
  · rw [hrows] at h
    cases h
  · rw [herror] at h
    cases h
    exact ⟨first, before, name, values, after, hcolumns, hbefore, hne, rfl⟩

/-- A table of two columns, one whose second column is too short, and a file with a table. -/
theorem ofColumns_eq_rowCount_parking : ∃ table m v,
    DataTable.ofColumns [("jobs", #[10.0, 20.0]), ("pop", #[1.0, 2.0])] = .ok table ∧
    table.column? "pop" = some #[1.0, 2.0] ∧
    DataTable.ofColumns [("jobs", #[10.0, 20.0]), ("pop", #[1.0])] = .error (.columnLength "pop" 1 2) ∧
    parse parkingText = .ok m ∧ (m.load : Except Defect (Variables Unit)) = .ok v := by
  have heven : ∀ a b c d : Float, DataTable.ofColumns [("jobs", #[a, b]), ("pop", #[c, d])] =
      .ok ⟨#[("jobs", #[a, b]), ("pop", #[c, d])], 2⟩ := by
    intro a b c d
    cbv
  obtain ⟨-, hholds, -, -⟩ :=
    ofColumns_eq_rowCount Unit ⟨[("jobs", #[10.0, 20.0]), ("pop", #[1.0, 2.0])]⟩
  obtain ⟨hcolumn, -⟩ := hholds (by decide) _ (heven _ _ _ _) "pop" _ (.tail _ List.mem_cons_self)
  obtain ⟨-, -, huneven, -⟩ := ofColumns_eq_rowCount Unit ⟨[("jobs", #[10.0, 20.0]), ("pop", #[1.0])]⟩
  obtain ⟨hrefused, -⟩ := huneven _ rfl
  obtain ⟨-, -, -, hfile⟩ := ofColumns_eq_rowCount Unit ⟨[]⟩
  obtain ⟨zones, households, alternatives, hload⟩ := hfile _ _ parse_parking
  exact ⟨_, _, _, heven _ _ _ _, hcolumn, hrefused, parse_parking, hload.trans rfl⟩

end Model

end ChoiceModel
