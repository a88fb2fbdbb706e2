import ChoiceModel.Proofs.Store.Grounded

/-! The places of the stores that bindings read and write. A binding has at most one in a context, and
two names with the same one are two ways to write a zone column. -/

namespace ChoiceModel.Store

/-- A place for one value, with slots, columns and rows counted from 0. -/
inductive Cell where
  | scalar (slot : Nat)
  | zone (column row : Nat)
  | household (column row : Nat)
  | alternative (column row : Nat)
deriving DecidableEq

variable {ο : Type}

open Variables (zoneColumn zoneRow householdRow alternativeRow)

/-- The cell of a source under a name; those that nothing can be written to have none. -/
def Source.cell? (name : String) (ctx : Context ο) : Source → Option Cell
  | .scalar slot => some (.scalar slot)
  | .zone column place => (zoneRow name place ctx).toOption.map (.zone column)
  | .household column => (householdRow name ctx).toOption.map (.household column)
  | .alternative column => (alternativeRow name ctx).toOption.map (.alternative column)
  | .matrix .. | .member .. | .array .. | .collection .. | .attribute .. | .loop _ => none

/-- The column that a cell is in, or the slot that it is. -/
theorem Source.of_cell? {name : String} {ctx : Context ο} {source : Source} {cell : Cell}
    (h : source.cell? name ctx = some cell) :
    match cell with
    | .scalar slot => source = .scalar slot
    | .zone column _ => ∃ place, source = .zone column place
    | .household column _ => source = .household column
    | .alternative column _ => source = .alternative column := by
  cases source with
  | scalar slot =>
    cases h
    rfl
  | zone column place =>
    obtain ⟨row, -, rfl⟩ := Option.map_eq_some_iff.mp h
    exact ⟨place, rfl⟩
  | household column =>
    obtain ⟨row, -, rfl⟩ := Option.map_eq_some_iff.mp h
    rfl
  | alternative column =>
    obtain ⟨row, -, rfl⟩ := Option.map_eq_some_iff.mp h
    rfl
  | matrix _ _ => cases h
  | member _ _ _ => cases h
  | array _ _ => cases h
  | collection _ _ => cases h
  | «attribute» _ _ => cases h
  | loop _ => cases h

def Binding.cell? (b : Binding) (ctx : Context ο) : Option Cell := b.source.cell? b.name ctx

/-- The value in a row of a column, if there are both. -/
def DataTable.valueAt? (t : DataTable) (column row : Nat) : Option Float :=
  t.columns[column]?.bind fun c => c.2[row]?

theorem DataTable.toOption_read (t : DataTable) (column row : Nat) :
    (t.read column row).toOption = t.valueAt? column row := by
  unfold read valueAt?
  cases t.columns[column]? with
  | none => rfl
  | some c =>
    obtain ⟨name, values⟩ := c
    cases hrow : values[row]? with
    | none => simp only [hrow, Option.bind_some]; rfl
    | some x => simp only [hrow, Option.bind_some]; rfl

theorem DataTable.outOfRange_congr {t t' : DataTable} (hnames : t'.columns.map Prod.fst =
    t.columns.map Prod.fst) (hrows : t'.rows = t.rows) (column row : Nat) :
    t'.outOfRange column row = t.outOfRange column row := by
  have hname : ∀ u : DataTable, u.name? column = (u.columns.map Prod.fst)[column]? := fun u => by
    rw [name?, Array.getElem?_map]
  rw [outOfRange, outOfRange, hname, hname, hnames, hrows]

/-- What is read from a table, or the error of reading it, once a value has been written to it. -/
theorem DataTable.read_write {t t' : DataTable} {column row : Nat} {x : Float}
    (h : t.write column row x = .ok t') (column' row' : Nat) :
    t'.read column' row' =
      if column' = column ∧ row' = row then .ok x else t.read column' row' := by
  unfold write at h
  split at h
  · cases h
  · rename_i name values hcolumn
    obtain ⟨hlt, -⟩ := Array.getElem?_eq_some_iff.mp hcolumn
    split at h
    · rename_i hrow
      cases h
      have hrange : ∀ column' row', (⟨t.columns.setIfInBounds column
          (name, values.setIfInBounds row x), t.rows⟩ : DataTable).outOfRange column' row' =
            t.outOfRange column' row' :=
        outOfRange_congr (map_fst_setIfInBounds hcolumn _) rfl
      by_cases hcolumn' : column' = column
      · subst hcolumn'
        rw [read, read, hcolumn, Array.getElem?_setIfInBounds, if_pos rfl, if_pos hlt]
        simp only [true_and, hrange, Array.getElem?_setIfInBounds]
        by_cases hrow' : row' = row
        · subst hrow'
          simp only [if_true, if_pos hrow]
        · simp only [if_neg (Ne.symm hrow'), if_neg hrow']
      · rw [if_neg fun heq => hcolumn' heq.1, read, read, Array.getElem?_setIfInBounds,
          if_neg (Ne.symm hcolumn')]
        simp only [hrange]
    · cases h

namespace Variables

variable {v w : Variables ο} {i j : Nat} {b b' : Binding} {ctx : Context ο} {cell : Cell}

/-- The cell that an index is bound to in a context. -/
def cellAt? (v : Variables ο) (i : Nat) (ctx : Context ο) : Option Cell :=
  v.bindings[i]?.bind fun b => b.cell? ctx

theorem cellAt?_eq_some (h : v.cellAt? i ctx = some cell) :
    ∃ b, v.bindings[i]? = some b ∧ b.cell? ctx = some cell :=
  Option.bind_eq_some_iff.mp h

def valueAt? (v : Variables ο) : Cell → Option Float
  | .scalar slot => v.scalars.value? slot
  | .zone column row => v.zones.valueAt? column row
  | .household column row => v.households.valueAt? column row
  | .alternative column row => v.alternatives.valueAt? column row

/-- Reads the value in a cell, with the error of its store if it is out of range. -/
def readAt (v : Variables ο) : Cell → Except Expression.EvalError Float
  | .scalar slot => v.scalars.read slot
  | .zone column row => v.zones.read column row
  | .household column row => v.households.read column row
  | .alternative column row => v.alternatives.read column row

theorem toOption_readAt (v : Variables ο) (cell : Cell) :
    (v.readAt cell).toOption = v.valueAt? cell := by
  cases cell with
  | scalar slot =>
    show (v.scalars.read slot).toOption = v.scalars.value? slot
    unfold Scalars.read
    cases v.scalars.value? slot with
    | none => rfl
    | some x => rfl
  | zone column row => exact DataTable.toOption_read v.zones column row
  | household column row => exact DataTable.toOption_read v.households column row
  | alternative column row => exact DataTable.toOption_read v.alternatives column row

theorem eq_ok_of_toOption {r : Except Expression.EvalError Nat} {make : Nat → Cell} {n : Nat}
    (hmake : Function.Injective make) (h : r.toOption.map make = some (make n)) : r = .ok n := by
  cases r with
  | error e => cases h
  | ok m => rw [hmake (Option.some.inj h)]

/-- A binding with a cell reads what is in the cell. -/
theorem read_eq_readAt (hb : v.bindings[i]? = some b) (hcell : b.cell? ctx = some cell) :
    v.read i ctx = v.readAt cell := by
  obtain ⟨name, source⟩ := b
  have hsource := Source.of_cell? hcell
  unfold read
  rw [hb]
  cases cell with
  | scalar slot =>
    obtain rfl : source = .scalar slot := hsource
    rfl
  | zone column row =>
    obtain ⟨place, rfl⟩ := hsource
    have hrow := eq_ok_of_toOption (fun _ _ h => (Cell.zone.inj h).2) hcell
    simp only [hrow]
    rfl
  | household column row =>
    obtain rfl : source = .household column := hsource
    have hrow := eq_ok_of_toOption (fun _ _ h => (Cell.household.inj h).2) hcell
    simp only [hrow]
    rfl
  | alternative column row =>
    obtain rfl : source = .alternative column := hsource
    have hrow := eq_ok_of_toOption (fun _ _ h => (Cell.alternative.inj h).2) hcell
    simp only [hrow]
    rfl

theorem read_cell (hb : v.bindings[i]? = some b) (hcell : b.cell? ctx = some cell) :
    (v.read i ctx).toOption = v.valueAt? cell := by
  rw [read_eq_readAt hb hcell, toOption_readAt]

/-- What is written goes to the cell of the binding, and to no other one. -/
theorem readAt_write {x : Float} (h : v.write i x ctx = .ok w) :
    ∃ cell, v.cellAt? i ctx = some cell ∧
      ∀ other, w.readAt other = if other = cell then .ok x else v.readAt other := by
  obtain ⟨name, source, hb, hstored⟩ := write_eq_ok h
  have hcellAt : v.cellAt? i ctx = source.cell? name ctx := by
    rw [cellAt?, hb]
    rfl
  rw [hcellAt]
  cases hstored with
  | @scalar slot _ hwrite =>
    obtain ⟨hlt, rfl⟩ := Scalars.write_eq_ok hwrite
    refine ⟨.scalar slot, rfl, fun other => ?_⟩
    cases other with
    | scalar slot' =>
      simp only [readAt, Scalars.read_setAt hlt, Cell.scalar.injEq]
    | zone _ _ => exact (if_neg Cell.noConfusion).symm
    | household _ _ => exact (if_neg Cell.noConfusion).symm
    | alternative _ _ => exact (if_neg Cell.noConfusion).symm
  | @zone column row place _ hrow hwrite =>
    refine ⟨.zone column row, by rw [Source.cell?, hrow]; rfl, fun other => ?_⟩
    cases other with
    | zone _ _ => simp only [readAt, DataTable.read_write hwrite, Cell.zone.injEq]
    | scalar _ => exact (if_neg Cell.noConfusion).symm
    | household _ _ => exact (if_neg Cell.noConfusion).symm
    | alternative _ _ => exact (if_neg Cell.noConfusion).symm
  | @household column row _ hrow hwrite =>
    refine ⟨.household column row, by rw [Source.cell?, hrow]; rfl, fun other => ?_⟩
    cases other with
    | household _ _ => simp only [readAt, DataTable.read_write hwrite, Cell.household.injEq]
    | scalar _ => exact (if_neg Cell.noConfusion).symm
    | zone _ _ => exact (if_neg Cell.noConfusion).symm
    | alternative _ _ => exact (if_neg Cell.noConfusion).symm
  | @alternative column row _ hrow hwrite =>
    refine ⟨.alternative column row, by rw [Source.cell?, hrow]; rfl, fun other => ?_⟩
    cases other with
    | alternative _ _ => simp only [readAt, DataTable.read_write hwrite, Cell.alternative.injEq]
    | scalar _ => exact (if_neg Cell.noConfusion).symm
    | zone _ _ => exact (if_neg Cell.noConfusion).symm
    | household _ _ => exact (if_neg Cell.noConfusion).symm

theorem write_cell {x : Float} (hb : v.bindings[i]? = some b) (hcell : b.cell? ctx = some cell)
    (h : v.write i x ctx = .ok w) :
    w.valueAt? cell = some x ∧ ∀ other ≠ cell, w.valueAt? other = v.valueAt? other := by
  obtain ⟨cell', hcell', hread⟩ := readAt_write h
  rw [cellAt?, hb, Option.bind_some, hcell] at hcell'
  cases hcell'
  refine ⟨?_, fun other hother => ?_⟩
  · rw [← toOption_readAt, hread, if_pos rfl]
    rfl
  · rw [← toOption_readAt, hread, if_neg hother, toOption_readAt]

/-- A read sees the last value written to its cell, under whatever name, and no other one. -/
theorem read_write {x : Float} {other : Cell} (hb : v.bindings[i]? = some b)
    (hb' : v.bindings[j]? = some b') (hcell : b.cell? ctx = some cell)
    (hcell' : b'.cell? ctx = some other) (h : v.write j x ctx = .ok w) :
    (w.read i ctx).toOption = if cell = other then some x else (v.read i ctx).toOption := by
  obtain ⟨hself, hrest⟩ := write_cell hb' hcell' h
  have hkept : w.bindings[i]? = some b := by
    rw [(write_sameNames h).bindings]
    exact hb
  rw [read_cell hkept hcell, read_cell hb hcell]
  split
  · rename_i heq
    rw [heq, hself]
  · rename_i hne
    exact hrest cell hne

/-- Two names of one cell are the same, unless they are names of one zone column. -/
theorem name_eq_of_cell (hv : v.Grounded) (hb : v.bindings[i]? = some b)
    (hb' : v.bindings[j]? = some b') (hcell : b.cell? ctx = some cell)
    (hcell' : b'.cell? ctx = some cell) :
    b.name = b'.name ∨
      (∃ column row, cell = .zone column row) ∧ (zoneColumn b.name).1 = (zoneColumn b'.name).1 := by
  have hsupports := hv i b hb
  have hsupports' := hv j b' hb'
  obtain ⟨name, source⟩ := b
  obtain ⟨name', source'⟩ := b'
  have hsource := Source.of_cell? hcell
  have hsource' := Source.of_cell? hcell'
  cases cell with
  | scalar slot =>
    obtain rfl : source = .scalar slot := hsource
    obtain rfl : source' = .scalar slot := hsource'
    exact .inl (findIdx?_injective hsupports hsupports')
  | zone column row =>
    obtain ⟨place, rfl⟩ := hsource
    obtain ⟨place', rfl⟩ := hsource'
    exact .inr ⟨⟨column, row, rfl⟩, findIdx?_injective hsupports hsupports'⟩
  | household column row =>
    obtain rfl : source = .household column := hsource
    obtain rfl : source' = .household column := hsource'
    exact .inl (findIdx?_injective hsupports hsupports')
  | alternative column row =>
    obtain rfl : source = .alternative column := hsource
    obtain rfl : source' = .alternative column := hsource'
    exact .inl (findIdx?_injective hsupports hsupports')

end Variables

end ChoiceModel.Store
