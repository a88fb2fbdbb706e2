import ChoiceModel.Proofs.Store.Cell
import ChoiceModel.Proofs.Store.Operations

/-! What solving an expression leaves alone. A write goes to one cell or fails as a read of that cell
does, so an expression that assigns changes what is read from there, under whatever name and in
whatever context, and nothing else. -/

namespace ChoiceModel

open Expression Store

variable {ο : Type}

namespace Store

theorem Scalars.write_eq_error_iff {t : Scalars} {i : Nat} {x : Float} {e : EvalError} :
    t.write i x = .error e ↔ t.read i = .error e := by
  unfold write read
  by_cases hlt : i < t.size
  · have hvalue : t.value? i = some t.entries[i].2 := by
      rw [value?, Array.getElem?_eq_getElem hlt, Option.map_some]
    simp [hlt, hvalue]
  · have hvalue : t.value? i = none := by
      rw [value?, Array.getElem?_eq_none (Nat.le_of_not_lt hlt), Option.map_none]
    simp [hlt, hvalue]

theorem DataTable.write_eq_error_iff {t : DataTable} {column row : Nat} {x : Float} {e : EvalError} :
    t.write column row x = .error e ↔ t.read column row = .error e := by
  unfold write read
  cases t.columns[column]? with
  | none => simp
  | some c =>
    obtain ⟨name, values⟩ := c
    by_cases hlt : row < values.size
    · simp [hlt]
    · simp [hlt]

namespace Variables

variable {v w : Variables ο} {i : Nat} {ctx : Context ο}

/-- What can be written fails to be written exactly when it cannot be read. -/
theorem write_eq_error_iff {b : Binding} (hb : v.bindings[i]? = some b)
    (hwritable : b.source.isWritable = true) {x : Float} {e : EvalError} :
    v.write i x ctx = .error e ↔ v.read i ctx = .error e := by
  have hreturn : ∀ {α : Type} {r : Except EvalError α} {put : α → Variables ο},
      (r >>= fun a => pure (put a)) = .error e ↔ r = .error e := by
    simp [bind_eq_error_iff, pure, Except.pure]
  obtain ⟨name, source⟩ := b
  unfold write read
  rw [hb]
  cases source with
  | scalar slot => exact hreturn.trans Scalars.write_eq_error_iff
  | zone column place =>
    simp only [hreturn, bind_eq_error_iff (r := zoneRow _ _ _), DataTable.write_eq_error_iff]
  | household column =>
    simp only [hreturn, bind_eq_error_iff (r := householdRow _ _), DataTable.write_eq_error_iff]
  | alternative column =>
    simp only [hreturn, bind_eq_error_iff (r := alternativeRow _ _), DataTable.write_eq_error_iff]
  | matrix entry orientation => cases hwritable
  | member entry orientation number => cases hwritable
  | array entry orientation => cases hwritable
  | collection entry orientation => cases hwritable
  | «attribute» slot fixed => cases hwritable
  | loop l => cases hwritable

/-- A binding reads its cell, if it has one, and otherwise what no write can change. -/
theorem read_congr (hbindings : w.bindings = v.bindings) (hmatrices : w.matrices = v.matrices)
    (hattributes : w.attributes = v.attributes)
    (hcell : ∀ cell, v.cellAt? i ctx = some cell → w.readAt cell = v.readAt cell) :
    w.read i ctx = v.read i ctx := by
  cases hat : v.cellAt? i ctx with
  | some cell =>
    obtain ⟨b, hb, hbcell⟩ := cellAt?_eq_some hat
    rw [read_eq_readAt hb hbcell, read_eq_readAt (hbindings ▸ hb) hbcell, hcell cell hat]
  | none =>
    unfold read
    rw [hbindings]
    cases hb : v.bindings[i]? with
    | none => rfl
    | some b =>
      obtain ⟨name, source⟩ := b
      rw [cellAt?, hb, Option.bind_some, Binding.cell?] at hat
      cases source with
      | scalar slot => cases hat
      | zone column place =>
        rw [Source.cell?, Option.map_eq_none_iff] at hat
        cases hrow : zoneRow name place ctx with
        | error e => simp only [hrow]; rfl
        | ok row => rw [hrow] at hat; cases hat
      | household column =>
        rw [Source.cell?, Option.map_eq_none_iff] at hat
        cases hrow : householdRow name ctx with
        | error e => simp only [hrow]; rfl
        | ok row => rw [hrow] at hat; cases hat
      | alternative column =>
        rw [Source.cell?, Option.map_eq_none_iff] at hat
        cases hrow : alternativeRow name ctx with
        | error e => simp only [hrow]; rfl
        | ok row => rw [hrow] at hat; cases hat
      | matrix entry orientation => simp only [hmatrices]
      | member entry orientation number => simp only [hmatrices]
      | array entry orientation => simp only [hmatrices]
      | collection entry orientation => simp only [hmatrices]
      | «attribute» slot fixed => simp only [hattributes]
      | loop l => rfl

/-- After a write, every name of its cell reads the value, in whatever context, and every other name
reads what it did. -/
theorem read_of_write {j : Nat} {x : Float} (h : v.write j x ctx = .ok w) :
    ∃ cell, v.cellAt? j ctx = some cell ∧ ∀ i (ctx' : Context ο),
      w.read i ctx' = if v.cellAt? i ctx' = some cell then .ok x else v.read i ctx' := by
  obtain ⟨cell, hcell, hread⟩ := readAt_write h
  have hbindings := (write_sameNames h).bindings
  obtain ⟨hmatrices, hattributes⟩ := write_rest h
  refine ⟨cell, hcell, fun i ctx' => ?_⟩
  split_ifs with heq
  · obtain ⟨b, hb, hbcell⟩ := cellAt?_eq_some heq
    rw [read_eq_readAt (hbindings ▸ hb) hbcell, hread, if_pos rfl]
  · refine read_congr hbindings hmatrices hattributes fun other hother => ?_
    rw [hread, if_neg]
    rintro rfl
    exact heq hother

theorem readIndexed_of_write {j : Nat} {x y : Float} (h : v.write j x ctx = .ok w) (i : Nat)
    (ctx' : Context ο) : w.readIndexed i y ctx' = v.readIndexed i y ctx' := by
  unfold readIndexed
  rw [(write_sameNames h).bindings, (write_rest h).1]

end Variables

end Store

namespace Expression

variable {v w : Variables ο} {ctx : Store.Context ο} {e : Expression}

/-- The ways in which solving an expression can end. -/
inductive Solved (e : Expression) (ctx : Store.Context ο) (v : Variables ο) :
    Except EvalError Float × Variables ο → Prop where
  | raised {err : EvalError} : e.value v ctx = .error err → Solved e ctx v (.error err, v)
  | refused {x : Float} {i : Nat} {err : EvalError} : e.value v ctx = .ok x → e.target? = some i →
    v.write i x ctx = .error err → Solved e ctx v (.error err, v)
  | valued {x : Float} : e.value v ctx = .ok x → e.target? = none → Solved e ctx v (.ok x, v)
  | assigned {x : Float} {i : Nat} {w : Variables ο} : e.value v ctx = .ok x →
    e.target? = some i → v.write i x ctx = .ok w → Solved e ctx v (.ok x, w)

theorem solve_solved (e : Expression) (ctx : Store.Context ο) (v : Variables ο) :
    e.Solved ctx v (e.solve v ctx) := by
  have hvalue : e.value v ctx = (e.valueSeen .silent v ctx ()).1 := rfl
  unfold solve solveSeen
  rcases hseen : e.valueSeen .silent v ctx () with ⟨r, seen⟩
  rw [hseen] at hvalue
  cases r with
  | error err => exact .raised hvalue
  | ok x =>
    cases hi : e.target? with
    | none => exact .valued hvalue hi
    | some i =>
      simp only [Cells.write]
      cases hwrite : v.write i x ctx with
      | error err => exact .refused hvalue hi hwrite
      | ok w => exact .assigned hvalue hi hwrite

/-- What solving an expression in the context makes of the variables `v`: it ends with `r` and leaves
the variables `w`, which differ from `v` in the cell that is assigned and in nothing else. -/
structure SolvedInPlace (e : Expression) (ctx : Store.Context ο) (v : Variables ο)
    (r : Except EvalError Float) (w : Variables ο) : Prop where
  value : ∀ x, r = .ok x → e.value v ctx = .ok x
  failed : ∀ err, r = .error err → w = v
  unassigned : e.target? = none → w = v
  /-- The value is read back under every name of the cell. -/
  assigned : ∀ x i, r = .ok x → e.target? = some i → w.read i ctx = .ok x ∧
    ∃ cell, v.cellAt? i ctx = some cell ∧ ∀ j (ctx' : Store.Context ο),
      w.read j ctx' = if v.cellAt? j ctx' = some cell then .ok x else v.read j ctx'
  lookups : ∀ j y (ctx' : Store.Context ο), w.readIndexed j y ctx' = v.readIndexed j y ctx'
  /-- A value is refused exactly where none can be read, and with the same error. -/
  refused : ∀ x i, e.value v ctx = .ok x → e.target? = some i →
    ∀ err, r = .error err ↔ v.read i ctx = .error err

theorem Solved.inPlace {r : Except EvalError Float} (h : e.Solved ctx v (r, w))
    (htarget : ∀ i, e.target? = some i →
      ∃ b, v.bindings[i]? = some b ∧ b.source.isWritable = true) :
    e.SolvedInPlace ctx v r w := by
  cases h with
  | raised hvalue =>
    refine ⟨nofun, fun _ _ => rfl, fun _ => rfl, nofun, fun _ _ _ => rfl, fun x i hx => ?_⟩
    rw [hvalue] at hx
    cases hx
  | @refused x i err hvalue hi hwrite =>
    refine ⟨nofun, fun _ _ => rfl, fun _ => rfl, nofun, fun _ _ _ => rfl, fun y j _ hj err' => ?_⟩
    cases hi.symm.trans hj
    obtain ⟨b, hb, hwritable⟩ := htarget i hi
    rw [← Variables.write_eq_error_iff hb hwritable (x := x), hwrite, Except.error.injEq,
      Except.error.injEq]
  | @valued x hvalue hi =>
    refine ⟨fun _ h => h ▸ hvalue, nofun, fun _ => rfl, fun y j _ hj => ?_, fun _ _ _ => rfl,
      fun y j _ hj => ?_⟩
    · cases hi.symm.trans hj
    · cases hi.symm.trans hj
  | @assigned x i _ hvalue hi hwrite =>
    refine ⟨fun _ h => h ▸ hvalue, nofun, fun hj => ?_, fun y j hy hj => ?_,
      fun j y ctx' => Variables.readIndexed_of_write hwrite j ctx', fun y j _ hj err => ?_⟩
    · cases hi.symm.trans hj
    · cases hi.symm.trans hj
      cases hy
      obtain ⟨cell, hcell, hread⟩ := Variables.read_of_write hwrite
      refine ⟨?_, cell, hcell, hread⟩
      rw [hread, if_pos hcell]
    · cases hi.symm.trans hj
      obtain ⟨b, hb, hwritable⟩ := htarget i hi
      rw [← Variables.write_eq_error_iff hb hwritable (x := x), hwrite]
      exact ⟨nofun, nofun⟩

/-- Whatever is done with the variables after an expression has been compiled against them, solving it
assigns to one cell or does nothing. -/
theorem solve_inPlace {u : Variables ο} {text : String} (later : List (Operation ο))
    (hcompile : ofText? text u = (.ok e, v)) (ctx : Store.Context ο) :
    e.SolvedInPlace ctx (v.performAll later) (e.solve (v.performAll later) ctx).1
      (e.solve (v.performAll later) ctx).2 := by
  obtain ⟨c, hc, rfl⟩ := ofText?_eq_ok_iff.mp hcompile
  have hsound := (compile_sound hc).mono (v.performAll_grows later)
  exact (solve_solved _ ctx _).inPlace hsound.target

/-- A zone column with two names, and the first `n` bindings of an expression that assigns it. -/
def population (n : Nat) (x y : Float) : Variables Unit where
  zones := ⟨#[("pop", #[x, y])], 2⟩
  bindings := #[⟨"dest.pop", .zone 0 .destination⟩, ⟨"$alt", .loop .alternative⟩,
    ⟨"pop", .zone 0 .origin⟩].take n

/-- What is assigned for the origin is read for the destination if they are the same zone. -/
theorem solve_inPlace_population : ∃ (e : Expression) (ctx : Store.Context Unit),
    ofText? ("pop" ++ " = " ++ "$alt") (population 1 1 2) = (.ok e, population 3 1 2) ∧
      (e.solve (population 3 1 2) ctx).1 = .ok 5 ∧ e.target? = some 2 ∧
      (population 3 1 2).cellAt? 0 ctx = (population 3 1 2).cellAt? 2 ctx ∧
      e.SolvedInPlace ctx (population 3 1 2) (e.solve (population 3 1 2) ctx).1
        (e.solve (population 3 1 2) ctx).2 := by
  have hletters : "pop".toList = ['p', 'o', 'p'] := by
    cbv
  have hname : ∀ c ∈ "pop".toList, isDelimiter c = false := by
    intro c hc
    rw [hletters, List.mem_cons, List.mem_cons, List.mem_singleton] at hc
    rcases hc with rfl | rfl | rfl <;> cbv
  have hcompile : ∀ x y, ofText? ("pop" ++ " = " ++ "$alt") (population 1 x y) =
      (.ok ⟨"pop = $alt", .compiled ⟨Tree.program (.load ⟨"$alt", 1⟩), some 2⟩⟩,
        population 3 x y) := by
    intro x y
    have hvalue : compileValue (' ' :: "$alt".toList) (population 1 x y) =
        (.ok (Tree.program (.load ⟨"$alt", 1⟩)), population 2 x y) := by
      cbv
    have hassign : Variables.resolveAssign "pop" (population 2 x y) = (some 2, population 3 x y) := by
      cbv
    exact ofText?_eq_ok_iff.mpr ⟨_, (compile_assignment_eq_ok_iff hname).mpr
      ⟨_, 2, hvalue, rfl, hassign, rfl⟩, rfl⟩
  have hvalue : ∀ x y, evaluate .silent (Tree.program (.load ⟨"$alt", 1⟩)) (population 3 x y)
      ({ origin := some 2, destination := some 2, alternative := 5 } : Store.Context Unit) () =
        (.ok 5, ()) := by
    intro x y
    refine finished_injective ?_
    rw [← forwardPass_eq_evaluate]
    rfl
  refine ⟨_, { origin := some 2, destination := some 2, alternative := 5 }, hcompile 1 2, ?_, rfl,
    rfl, solve_inPlace [] (hcompile 1 2) _⟩
  simp only [solve, solveSeen, valueSeen, hvalue]
  rfl

end Expression

end ChoiceModel
