import ChoiceModel.Proofs.Store.Members

/-! Matrices that are transposed and read in the other orientation. Nobody who asks for the value of a
trip can tell them from what they were before; only an error that names a cell names it the other way
round. -/

namespace ChoiceModel

open Expression (EvalError)

/-- The error with the row and the column of a matrix exchanged. -/
def Expression.EvalError.transposed : EvalError → EvalError
  | .cell name (.cell row column zones) => .cell name (.cell column row zones)
  | e => e

namespace Store

/-- The orientation that takes the other end of a trip for the row. -/
def Orientation.other : Orientation → Orientation
  | byOrigin => byDestination
  | byDestination => byOrigin

theorem Orientation.cell_other (o : Orientation) (origin destination : Nat) :
    o.other.cell origin destination = (o.cell origin destination).swap := by
  cases o with
  | byOrigin => rfl
  | byDestination => rfl

/-- The columns of a square as rows. -/
def transpose (rows : Array (Array Float)) : Array (Array Float) :=
  (Array.range rows.size).map fun column => rows.map fun row => row.getD column 0.0

section Transpose

variable {rows : Array (Array Float)}

theorem size_transpose (rows : Array (Array Float)) : (transpose rows).size = rows.size := by
  rw [transpose, Array.size_map, Array.size_range]

theorem size_of_mem_transpose {row : Array Float} (h : row ∈ transpose rows) :
    row.size = (transpose rows).size := by
  obtain ⟨column, -, rfl⟩ := Array.mem_map.mp h
  rw [Array.size_map, size_transpose]

theorem getElem?_transpose (hsquare : ∀ row ∈ rows, row.size = rows.size) (i j : Nat) :
    ((transpose rows)[i]?.bind fun row => row[j]?) = rows[j]?.bind fun row => row[i]? := by
  by_cases hi : i < rows.size
  · have hcolumn : (transpose rows)[i]? = some (rows.map fun row => row.getD i 0.0) := by
      rw [transpose, Array.getElem?_map, Array.getElem?_range, if_pos hi]
      rfl
    rw [hcolumn, Option.bind_some, Array.getElem?_map]
    cases hrow : rows[j]? with
    | none => rfl
    | some row =>
      have hlt : i < row.size := by
        rw [hsquare row (Array.mem_of_getElem? hrow)]
        exact hi
      rw [Option.map_some, Option.bind_some, Array.getD_eq_getD_getElem?,
        Array.getElem?_eq_getElem hlt]
      rfl
  · have hcolumn : (transpose rows)[i]? = none :=
      Array.getElem?_eq_none (by rw [size_transpose]; exact Nat.not_lt.mp hi)
    rw [hcolumn, Option.bind_none]
    cases hrow : rows[j]? with
    | none => rfl
    | some row =>
      refine (Array.getElem?_eq_none ?_).symm
      rw [hsquare row (Array.mem_of_getElem? hrow)]
      exact Nat.not_lt.mp hi

end Transpose

namespace Matrix

variable {m : Matrix}

def transposed (m : Matrix) : Matrix := { m with rows := transpose m.rows }

theorem Square.rows (h : m.Square) : ∀ row ∈ m.rows, row.size = m.rows.size := by
  intro row hrow
  obtain ⟨i, hi⟩ := Array.mem_iff_getElem?.mp hrow
  exact h i row hi

theorem cell?_transposed (h : m.Square) (row column : Nat) :
    m.transposed.cell? row column = m.cell? column row := by
  rw [cell?, cell?, transposed, getElem?_transpose h.rows, Bool.or_comm]

theorem cell_transposed (h : m.Square) (row column : Nat) :
    m.transposed.cell row column = (m.cell column row).mapError EvalError.transposed := by
  have hzones : m.transposed.zones = m.zones := size_transpose m.rows
  rw [cell, cell, cell?_transposed h, hzones]
  cases m.cell? column row with
  | some x => rfl
  | none => rfl

end Matrix

def Content.transposed : Content → Content
  | .matrix m => .matrix m.transposed
  | .member c k m => .member c k m.transposed
  | .array members => .array (members.map Matrix.transposed)
  | .collection members => .collection (members.map Matrix.transposed)

def Entry.transposed (e : Entry) : Entry := ⟨e.name, e.content.transposed, e.orientation.other⟩

theorem Content.single?_transposed (c : Content) :
    c.transposed.single? = c.single?.map Matrix.transposed := by
  cases c <;> rfl

theorem Content.members?_transposed (c : Content) :
    c.transposed.members? = c.members?.map fun members => members.map Matrix.transposed := by
  cases c <;> rfl

namespace Matrices

variable {t : Matrices}

def transposed (t : Matrices) : Matrices := ⟨t.entries.map Entry.transposed⟩

theorem indexOf?_transposed (t : Matrices) (name : String) :
    t.transposed.indexOf? name = t.indexOf? name := by
  rw [indexOf?, transposed, Array.findIdx?_map]
  rfl

theorem getElem?_transposed (t : Matrices) (i : Nat) :
    t.transposed.entries[i]? = t.entries[i]?.map Entry.transposed := by
  rw [transposed, Array.getElem?_map]

theorem entry?_transposed (t : Matrices) (name : String) :
    t.transposed.entry? name = (t.entry? name).map Entry.transposed := by
  unfold entry?
  rw [indexOf?_transposed]
  cases t.indexOf? name with
  | none => rfl
  | some i => exact t.getElem?_transposed i

theorem read_transposed (h : t.AllMatrices Matrix.Square) (i : Nat) (trip : Nat × Nat) :
    t.transposed.read i trip = (t.read i trip).mapError EvalError.transposed := by
  rw [read, read, getElem?_transposed]
  cases he : t.entries[i]? with
  | none => rfl
  | some e =>
    simp only [Option.map_some, Entry.transposed, Content.single?_transposed]
    cases hm : e.content.single? with
    | none => rfl
    | some m =>
      have hsquare : m.Square := by
        refine h e (Array.mem_of_getElem? he) m ?_
        cases hcontent : e.content <;> rw [hcontent] at hm <;> cases hm <;> exact List.mem_singleton_self _
      simp only [Option.map_some, Orientation.cell_other]
      exact Matrix.cell_transposed hsquare _ _

theorem readIndexed_transposed (h : t.AllMatrices Matrix.Square) (i : Nat) (subscript : Float)
    (trip : Nat × Nat) : t.transposed.readIndexed i subscript trip =
      (t.readIndexed i subscript trip).mapError EvalError.transposed := by
  rw [readIndexed, readIndexed, getElem?_transposed]
  cases he : t.entries[i]? with
  | none => rfl
  | some e =>
    simp only [Option.map_some, Entry.transposed, Content.members?_transposed]
    cases hms : e.content.members? with
    | none => rfl
    | some ms =>
      simp only [Option.map_some, Array.size_map, Array.getElem?_map]
      cases hk : subscriptPosition subscript ms.size with
      | none => rfl
      | some k =>
        simp only [Option.bind_some]
        cases hm : ms[k]? with
        | none => rfl
        | some m =>
          have hsquare : m.Square := by
            refine h e (Array.mem_of_getElem? he) m ?_
            have hmem : m ∈ ms.toList := Array.mem_toList_iff.mpr (Array.mem_of_getElem? hm)
            cases hcontent : e.content <;> rw [hcontent] at hms <;> cases hms <;> exact hmem
          simp only [Option.map_some, Orientation.cell_other]
          exact Matrix.cell_transposed hsquare _ _

end Matrices

def Source.transposed : Source → Source
  | .matrix entry orientation => .matrix entry orientation.other
  | .member entry orientation number => .member entry orientation.other number
  | .array entry orientation => .array entry orientation.other
  | .collection entry orientation => .collection entry orientation.other
  | source => source

theorem Source.isGroup_transposed (s : Source) : s.transposed.isGroup = s.isGroup := by
  cases s <;> rfl

theorem Source.isWritable_transposed (s : Source) : s.transposed.isWritable = s.isWritable := by
  cases s <;> rfl

def Binding.transposed (b : Binding) : Binding := ⟨b.name, b.source.transposed⟩

namespace Variables

variable {ο : Type} {v : Variables ο}

/-- The variables with every matrix transposed and every orientation changed. -/
def transposed (v : Variables ο) : Variables ο :=
  { v with matrices := v.matrices.transposed, bindings := v.bindings.map Binding.transposed }

section Resolve

theorem matrixSource?_transposed (v : Variables ο) (name : String) :
    v.transposed.matrixSource? name = (v.matrixSource? name).map Source.transposed := by
  have hentry : v.transposed.matrices.entry? name = (v.matrices.entry? name).map Entry.transposed :=
    v.matrices.entry?_transposed name
  have hindex : v.transposed.matrices.indexOf? name = v.matrices.indexOf? name :=
    v.matrices.indexOf?_transposed name
  rw [matrixSource?, matrixSource?, hentry, hindex]
  cases v.matrices.indexOf? name with
  | none => rfl
  | some i =>
    cases v.matrices.entry? name with
    | none => rfl
    | some e =>
      obtain ⟨name, content, orientation⟩ := e
      cases content <;> rfl

/-- Whether a source is a group is all that a choice of sources goes by. -/
theorem filter_transposed (p : Bool → Bool) (source : Option Source) :
    (source.map Source.transposed).filter (fun s => p s.isGroup) =
      (source.filter fun s => p s.isGroup).map Source.transposed := by
  rw [Option.filter_map]
  refine congrArg (Option.map _) (congrArg (Option.filter · _) (funext fun s => ?_))
  rw [Function.comp_apply, Source.isGroup_transposed]

theorem source?_transposed (v : Variables ο) (name : String) :
    v.transposed.source? name = (v.source? name).map Source.transposed := by
  unfold source?
  split
  · cases LoopVariable.ofName? name <;> rfl
  · rename_i rest _
    change (v.attributes.indexOf? (String.ofList rest)).map _ = _
    cases v.attributes.indexOf? (String.ofList rest) <;> rfl
  · rename_i rest _ _
    change (v.attributes.indexOf? (String.ofList rest)).map _ = _
    cases v.attributes.indexOf? (String.ofList rest) <;> rfl
  · rw [matrixSource?_transposed, filter_transposed Bool.not]
    have hor : ∀ x y : Option Source, (x <|> y).map Source.transposed =
        (x.map Source.transposed <|> y.map Source.transposed) := by
      intro x y
      cases x <;> rfl
    simp only [hor, Option.map_map]
    rfl

theorem bindingOf?_transposed (v : Variables ο) (name : String) (group : Bool) :
    v.transposed.bindingOf? name group = v.bindingOf? name group := by
  rw [bindingOf?, transposed, Array.findIdx?_map]
  refine congrArg (Array.findIdx? · _) (funext fun b => ?_)
  rw [Function.comp_apply, Binding.transposed, Source.isGroup_transposed]

theorem bind_transposed (v : Variables ο) (b : Binding) :
    v.transposed.bind b.transposed = ((v.bind b).1, (v.bind b).2.transposed) := by
  refine Prod.ext ?_ ?_
  · exact congrArg some (Array.size_map ..)
  · simp only [bind, transposed, Array.map_push]

theorem resolveRead_transposed (name : String) (v : Variables ο) : resolveRead name v.transposed =
    ((resolveRead name v).1, (resolveRead name v).2.transposed) := by
  rw [resolveRead, resolveRead, bindingOf?_transposed, source?_transposed]
  cases v.bindingOf? name false with
  | some i => rfl
  | none =>
    cases v.source? name with
    | none => rfl
    | some source => exact v.bind_transposed ⟨name, source⟩

theorem resolveArray_transposed (name : String) (v : Variables ο) : resolveArray name v.transposed =
    ((resolveArray name v).1, (resolveArray name v).2.transposed) := by
  have hfilter : ((v.matrixSource? name).map Source.transposed).filter Source.isGroup =
      ((v.matrixSource? name).filter Source.isGroup).map Source.transposed := filter_transposed id _
  rw [resolveArray, resolveArray, bindingOf?_transposed, matrixSource?_transposed, hfilter]
  cases v.bindingOf? name true with
  | some i => rfl
  | none =>
    cases (v.matrixSource? name).filter Source.isGroup with
    | none => exact resolveRead_transposed name v
    | some source => exact v.bind_transposed ⟨name, source⟩

theorem resolveAssign_transposed (name : String) (v : Variables ο) : resolveAssign name v.transposed =
    ((resolveAssign name v).1, (resolveAssign name v).2.transposed) := by
  rw [resolveAssign, resolveAssign, resolveRead_transposed]
  rcases resolveRead name v with ⟨_ | i, w⟩
  · have hfree : w.transposed.isFree name = w.isFree name := by
      rw [isFree, isFree, transposed, Matrices.indexOf?_transposed]
    simp only [hfree]
    split
    · exact bind_transposed { w with scalars := (w.scalars.allocate name).2 }
        ⟨name, .scalar (w.scalars.allocate name).1⟩
    · rfl
  · have hwritable : (w.transposed.bindings[i]?.any fun b => b.source.isWritable) =
        w.bindings[i]?.any fun b => b.source.isWritable := by
      rw [transposed, Array.getElem?_map]
      cases w.bindings[i]? with
      | none => rfl
      | some b => exact b.source.isWritable_transposed
    simp only [hwritable]

end Resolve

section Cells

theorem mapError_scalar (t : Scalars) (slot : Nat) :
    (t.read slot).mapError EvalError.transposed = t.read slot := by
  unfold Scalars.read
  cases t.value? slot <;> rfl

theorem mapError_column (t : DataTable) (column row : Nat) :
    (t.read column row).mapError EvalError.transposed = t.read column row := by
  unfold DataTable.read
  cases t.columns[column]? with
  | none => rfl
  | some c =>
    cases hx : c.2[row]? <;> simp only [hx] <;> rfl

theorem mapError_zoneRow (name : String) (place : Place) (ctx : Context ο) :
    (zoneRow name place ctx).mapError EvalError.transposed = zoneRow name place ctx := by
  unfold zoneRow
  simp only
  split <;> rfl

theorem mapError_householdRow (name : String) (ctx : Context ο) :
    (householdRow name ctx).mapError EvalError.transposed = householdRow name ctx := by
  unfold householdRow
  split <;> rfl

theorem mapError_alternativeRow (name : String) (ctx : Context ο) :
    (alternativeRow name ctx).mapError EvalError.transposed = alternativeRow name ctx := by
  unfold alternativeRow
  split <;> rfl

theorem mapError_trip (name : String) (ctx : Context ο) :
    (trip name ctx).mapError EvalError.transposed = trip name ctx := by
  unfold trip
  split <;> rfl

/-- No part of reading a row in one of the tables fails at a cell of a matrix. -/
theorem mapError_readRow {r : Except EvalError Nat} (hr : r.mapError EvalError.transposed = r)
    (t : DataTable) (column : Nat) :
    (r >>= t.read column).mapError EvalError.transposed = r >>= t.read column := by
  rw [mapError_bind, hr]
  exact congrArg _ (funext fun row => mapError_column t column row)

theorem trip_bind_transposed (name : String) (ctx : Context ο)
    {f g : Nat × Nat → Except EvalError Float}
    (hfg : ∀ trip, g trip = (f trip).mapError EvalError.transposed) :
    (trip name ctx >>= g) = (trip name ctx >>= f).mapError EvalError.transposed := by
  rw [mapError_bind, mapError_trip]
  exact congrArg _ (funext hfg)

theorem read_transposed (h : v.matrices.AllMatrices Matrix.Square) (i : Nat) (ctx : Context ο) :
    v.transposed.read i ctx = (v.read i ctx).mapError EvalError.transposed := by
  have hmatrix : ∀ name entry, (trip name ctx >>= v.transposed.matrices.read entry) =
      (trip name ctx >>= v.matrices.read entry).mapError EvalError.transposed :=
    fun name entry => trip_bind_transposed name ctx (Matrices.read_transposed h entry)
  unfold read
  rw [transposed, Array.getElem?_map]
  cases v.bindings[i]? with
  | none => rfl
  | some b =>
    obtain ⟨name, source⟩ := b
    cases source with
    | scalar slot => exact (mapError_scalar _ _).symm
    | zone column place => exact (mapError_readRow (mapError_zoneRow name place ctx) _ _).symm
    | household column => exact (mapError_readRow (mapError_householdRow name ctx) _ _).symm
    | «alternative» column => exact (mapError_readRow (mapError_alternativeRow name ctx) _ _).symm
    | matrix entry orientation => exact hmatrix name entry
    | member entry orientation number => exact hmatrix name entry
    | array entry orientation => exact hmatrix name entry
    | collection entry orientation => exact hmatrix name entry
    | «attribute» slot fixed =>
      simp only [Option.map_some, Binding.transposed, Source.transposed]
      cases ctx.decisionMaker with
      | none => rfl
      | some person =>
        cases hx : v.attributes.call? slot person (if fixed then 0 else ctx.alternative) <;>
          simp only [hx] <;> rfl
    | loop l =>
      simp only [Option.map_some, Binding.transposed, Source.transposed]
      cases loopValue? ctx l <;> rfl

theorem readIndexed_transposed (h : v.matrices.AllMatrices Matrix.Square) (i : Nat) (y : Float)
    (ctx : Context ο) : v.transposed.readIndexed i y ctx =
      (v.readIndexed i y ctx).mapError EvalError.transposed := by
  have hmatrix : ∀ name entry, (trip name ctx >>= v.transposed.matrices.readIndexed entry y) =
      (trip name ctx >>= v.matrices.readIndexed entry y).mapError EvalError.transposed :=
    fun name entry => trip_bind_transposed name ctx (Matrices.readIndexed_transposed h entry y)
  unfold readIndexed
  rw [transposed, Array.getElem?_map]
  cases v.bindings[i]? with
  | none => rfl
  | some b =>
    obtain ⟨name, source⟩ := b
    cases source with
    | matrix entry orientation => exact hmatrix name entry
    | member entry orientation number => exact hmatrix name entry
    | array entry orientation => exact hmatrix name entry
    | collection entry orientation => exact hmatrix name entry
    | _ => rfl

theorem mapError_writeColumn (t : DataTable) (column row : Nat) (x : Float) :
    (t.write column row x).mapError EvalError.transposed = t.write column row x := by
  unfold DataTable.write
  split
  · rfl
  · split <;> rfl

/-- A row that is found and written in one of the tables, as it goes into the variables. -/
theorem write_row_transposed {r : Except EvalError Nat} (hr : r.mapError EvalError.transposed = r)
    (t : DataTable) (column : Nat) (x : Float) {f g : DataTable → Variables ο}
    (hfg : ∀ t, g t = (f t).transposed) :
    (r >>= fun row => t.write column row x >>= fun t => .ok (g t)) =
      ((r >>= fun row => t.write column row x >>= fun t => .ok (f t)).mapError
        EvalError.transposed).map transposed := by
  cases r with
  | error e => exact congrArg Except.error (Except.error.inj hr).symm
  | ok row =>
    have hwrite := mapError_writeColumn t column row x
    change (t.write column row x >>= fun _ => _) =
      ((t.write column row x >>= fun _ => _).mapError _).map _
    cases hresult : t.write column row x with
    | error e =>
      rw [hresult] at hwrite
      exact congrArg Except.error (Except.error.inj hwrite).symm
    | ok t' => exact congrArg Except.ok (hfg t')

theorem write_transposed (v : Variables ο) (i : Nat) (x : Float) (ctx : Context ο) :
    v.transposed.write i x ctx =
      ((v.write i x ctx).mapError EvalError.transposed).map transposed := by
  have hbinding : v.transposed.bindings[i]? = v.bindings[i]?.map Binding.transposed :=
    Array.getElem?_map ..
  unfold write
  rw [hbinding]
  cases v.bindings[i]? with
  | none => rfl
  | some b =>
    obtain ⟨name, source⟩ := b
    cases source with
    | scalar slot =>
      change (v.scalars.write slot x >>= fun _ => _) =
        ((v.scalars.write slot x >>= fun _ => _).mapError _).map _
      unfold Scalars.write
      split <;> rfl
    | zone column place => exact write_row_transposed (mapError_zoneRow name place ctx) _ _ _ fun _ => rfl
    | household column => exact write_row_transposed (mapError_householdRow name ctx) _ _ _ fun _ => rfl
    | «alternative» column =>
      exact write_row_transposed (mapError_alternativeRow name ctx) _ _ _ fun _ => rfl
    | _ => rfl

end Cells

end Variables

end Store

end ChoiceModel
