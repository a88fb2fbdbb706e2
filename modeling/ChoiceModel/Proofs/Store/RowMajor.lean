import ChoiceModel.Proofs.Store.Members

/-! Matrices with their cells in one array, row behind row. Made, read and written alike, they show the
same as matrices whose rows are arrays of their own, and no cell is looked for outside the array. -/

namespace ChoiceModel.Store

open Expression (EvalError)
open Model (Defect)

namespace Matrix

/-- Square matrices are told apart by their names, their sizes and their cells. -/
theorem Square.ext {m n : Matrix} (hm : m.Square) (hn : n.Square) (hname : m.name = n.name)
    (hzones : m.zones = n.zones)
    (hcells : ∀ r < m.zones, ∀ c < m.zones, (m.rows[r]?.bind fun values => values[c]?) =
      n.rows[r]?.bind fun values => values[c]?) : m = n := by
  obtain ⟨name, rows⟩ := m
  obtain ⟨name', rows'⟩ := n
  obtain rfl : name = name' := hname
  have hrows : rows = rows' := by
    refine Array.ext hzones fun r hr hr' => ?_
    have hsize := hm r _ (Array.getElem?_eq_getElem hr)
    have hsize' := hn r _ (Array.getElem?_eq_getElem hr')
    refine Array.ext (hsize.trans (hzones.trans hsize'.symm)) fun c hc hc' => ?_
    have hcell := hcells r hr c (hsize ▸ hc)
    dsimp only at hcell
    rw [Array.getElem?_eq_getElem hr, Array.getElem?_eq_getElem hr', Option.bind_some,
      Option.bind_some, Array.getElem?_eq_getElem hc, Array.getElem?_eq_getElem hc'] at hcell
    exact Option.some.inj hcell
  rw [hrows]

theorem Square.set? {m n : Matrix} {row column : Nat} {x : Float} (h : m.Square)
    (hset : m.set? row column x = some n) : n.Square := by
  obtain ⟨-, -, rfl⟩ := Option.map_eq_some_iff.mp hset
  intro i values hi
  rw [Array.getElem?_modify] at hi
  rw [zones, Array.size_modify]
  split at hi
  · obtain ⟨before, hbefore, rfl⟩ := Option.map_eq_some_iff.mp hi
    rw [Array.size_setIfInBounds]
    exact h i before hbefore
  · exact h i values hi

end Matrix

structure RowMajor where
  name : String
  zones : Nat
  values : Array Float
  size_values : values.size = zones * zones

/-- Puts rows, counted from `row`, behind the values in front of them, as long as each has `zones`
values. -/
def extendRows (name : String) (zones row : Nat) :
    List (Array Float) → Array Float → Except Defect (Array Float)
  | [], values => .ok values
  | next :: rest, values =>
    if next.size != zones then .error (.matrixRow name row next.size zones)
    else extendRows name zones (row + 1) rest (values ++ next)

section Rows

variable {name : String} {zones row i r c : Nat} {rows : List (Array Float)} {values all : Array Float}

theorem extendRows_cons {next : Array Float} (hsize : next.size = zones) :
    extendRows name zones row (next :: rows) values =
      extendRows name zones (row + 1) rows (values ++ next) := by
  rw [extendRows, hsize, bne_self_eq_false, if_neg Bool.false_ne_true]

theorem size_of_extendRows_cons {next : Array Float}
    (h : extendRows name zones row (next :: rows) values = .ok all) : next.size = zones := by
  rw [extendRows] at h
  split at h
  · cases h
  · rename_i hsize
    simpa using hsize

theorem size_extendRows (h : extendRows name zones row rows values = .ok all) :
    all.size = values.size + rows.length * zones := by
  induction rows generalizing row values with
  | nil =>
    cases h
    rw [List.length_nil, Nat.zero_mul, Nat.add_zero]
  | cons next rows ih =>
    have hsize := size_of_extendRows_cons h
    rw [extendRows_cons hsize] at h
    rw [ih h, Array.size_append, hsize, List.length_cons, Nat.add_mul, Nat.one_mul]
    omega

end Rows

namespace RowMajor

variable {m : RowMajor} {name : String} {row column i : Nat}

def zero (name : String) (zones : Nat) : RowMajor :=
  ⟨name, zones, .replicate (zones * zones) 0.0, Array.size_replicate⟩

def ofRows (name : String) (rows : Array (Array Float)) : Except Defect RowMajor :=
  match h : extendRows name rows.size 1 rows.toList #[] with
  | .error d => .error d
  | .ok values =>
    .ok ⟨name, rows.size, values, by
      rw [size_extendRows h, Array.length_toList]
      exact Nat.zero_add _⟩

/-- Where the cell of a row and a column, both counted from 1, stands among the values. -/
def offset? (m : RowMajor) (row column : Nat) : Option Nat :=
  if (1 ≤ row ∧ row ≤ m.zones) ∧ 1 ≤ column ∧ column ≤ m.zones then
    some ((row - 1) * m.zones + (column - 1))
  else none

theorem offset_lt {zones r c : Nat} (hr : r < zones) (hc : c < zones) : r * zones + c < zones * zones :=
  calc
    r * zones + c < r * zones + zones := Nat.add_lt_add_left hc _
    _ = (r + 1) * zones := (Nat.succ_mul r zones).symm
    _ ≤ zones * zones := Nat.mul_le_mul_right zones hr

theorem offset?_eq_some_iff : m.offset? row column = some i ↔
    ((1 ≤ row ∧ row ≤ m.zones) ∧ 1 ≤ column ∧ column ≤ m.zones) ∧
      (row - 1) * m.zones + (column - 1) = i := by
  rw [offset?, Option.ite_none_right_eq_some, Option.some.injEq]

theorem lt_of_offset? (h : m.offset? row column = some i) : i < m.values.size := by
  obtain ⟨hzones, rfl⟩ := offset?_eq_some_iff.mp h
  rw [m.size_values]
  exact offset_lt (by omega) (by omega)

def cell? (m : RowMajor) (row column : Nat) : Option Float :=
  match h : m.offset? row column with
  | none => none
  | some i =>
    have := lt_of_offset? h
    some m.values[i]

def set? (m : RowMajor) (row column : Nat) (x : Float) : Option RowMajor :=
  (m.offset? row column).map fun i =>
    { m with values := m.values.setIfInBounds i x, size_values := by simp [m.size_values] }

def cell (m : RowMajor) (row column : Nat) : Except EvalError Float :=
  match m.cell? row column with
  | some x => .ok x
  | none => .error (.cell m.name (.cell row column m.zones))

/-- The same matrix with an array for each row. -/
def nested (m : RowMajor) : Matrix where
  name := m.name
  rows := .ofFn fun r : Fin m.zones => m.values.extract (r * m.zones) ((r + 1) * m.zones)

theorem cell?_eq (m : RowMajor) (row column : Nat) :
    m.cell? row column = (m.offset? row column).bind fun i => m.values[i]? := by
  rw [cell?]
  split
  · rename_i h
    rw [h]
    rfl
  · rename_i i h
    conv_rhs => rw [h, Option.bind_some, Array.getElem?_eq_getElem (lt_of_offset? h)]

@[simp] theorem zones_nested (m : RowMajor) : m.nested.zones = m.zones := Array.size_ofFn

theorem square_nested (m : RowMajor) : m.nested.Square := by
  intro r values hr
  rw [nested, Array.getElem?_ofFn] at hr
  split at hr
  · rename_i hlt
    cases hr
    have hle : (r + 1) * m.zones ≤ m.zones * m.zones := Nat.mul_le_mul_right _ hlt
    rw [Array.size_extract, m.size_values, Nat.min_eq_left hle, Nat.succ_mul, Nat.add_sub_cancel_left,
      zones_nested]
  · cases hr

theorem getElem?_nested {r c : Nat} (hr : r < m.zones) (hc : c < m.zones) :
    (m.nested.rows[r]?.bind fun values => values[c]?) = m.values[r * m.zones + c]? := by
  have hle : (r + 1) * m.zones ≤ m.values.size := by
    rw [m.size_values]
    exact Nat.mul_le_mul_right _ hr
  rw [nested, Array.getElem?_ofFn, dif_pos hr, Option.bind_some, Array.getElem?_extract,
    Nat.min_eq_left hle, Nat.succ_mul, Nat.add_sub_cancel_left, if_pos hc]

/-- Both matrices show the same in every row and column. -/
theorem cell?_nested (m : RowMajor) (row column : Nat) :
    m.nested.cell? row column = m.cell? row column := by
  rw [cell?_eq, offset?]
  split
  · rename_i hzones
    have hpositive : (row == 0 || column == 0) = false := by
      rw [Bool.or_eq_false_iff, beq_eq_false_iff_ne, beq_eq_false_iff_ne]
      omega
    rw [Matrix.cell?, hpositive, if_neg Bool.false_ne_true, getElem?_nested (by omega) (by omega)]
    rfl
  · rename_i hzones
    rw [← m.zones_nested, ← m.square_nested.isSome_cell?, Option.not_isSome_iff_eq_none] at hzones
    rw [hzones]
    rfl

theorem cell_nested (m : RowMajor) (row column : Nat) :
    m.nested.cell row column = m.cell row column := by
  rw [Matrix.cell, cell, cell?_nested, zones_nested]
  rfl

end RowMajor

end ChoiceModel.Store
