import ChoiceModel.Proofs.Expression.Sound
import ChoiceModel.Proofs.Store.Agreement
import ChoiceModel.Proofs.Utility

/-! Alternatives share the scalars that the rows of their utility assign. Where every such scalar is
assigned before anything reads it, no alternative sees what another one has left in it, so each of
them has the utility that it has alone. -/

namespace ChoiceModel

open Expression Store

variable {ο : Type}

namespace Expression

variable {v₀ v w : Variables ο} {stale : Nat → Prop} {e : Expression}

/-- The expression has been compiled, and all that it refers to is bound. -/
def IsSound (v : Variables ο) (e : Expression) : Prop := ∃ c, e.state = .compiled c ∧ Sound v c

theorem IsSound.mono (h : e.IsSound v) (hvw : v.Grows w) : e.IsSound w := by
  obtain ⟨c, hstate, hsound⟩ := h
  exact ⟨c, hstate, hsound.mono hvw⟩

theorem ofText?_isSound {text : String} (h : ofText? text v = (.ok e, w)) : e.IsSound w := by
  obtain ⟨c, hcompile, rfl⟩ := ofText?_eq_ok_iff.mp h
  exact ⟨c, rfl, compile_sound hcompile⟩

/-- The scalars that an expression reads, by their slots. -/
def scalarsRead (v : Variables ο) (e : Expression) : List Nat :=
  ((e.program?.map Program.loads).getD []).filterMap v.scalarAt?

/-- The scalar that an expression assigns to. -/
def scalarAssigned? (v : Variables ο) (e : Expression) : Option Nat := e.target?.bind v.scalarAt?

theorem bound_of_mem_loads {p : Program} {i : Nat} (hp : p.Every v.Serves) (hi : i ∈ p.loads) :
    ∃ b, v.bindings[i]? = some b := by
  obtain ⟨slot, hslot, hload⟩ := List.mem_filterMap.mp hi
  have hserves := hp slot hslot
  split at hload
  · rename_i j heq
    cases hload
    rw [heq] at hserves
    obtain ⟨b, hb, -⟩ := hserves
    exact ⟨b, hb⟩
  · cases hload

theorem scalarAt?_of_keeps {i : Nat} (hkept : v₀.Keeps v) (hbound : ∃ b, v₀.bindings[i]? = some b) :
    v.scalarAt? i = v₀.scalarAt? i := by
  obtain ⟨b, hb⟩ := hbound
  rw [Variables.scalarAt?, Variables.scalarAt?, hb, hkept i b hb]

/-- An expression that reads no stale scalar has its value whatever those hold. -/
theorem valueSeen_agree (he : e.IsSound v₀) (hkept : v₀.Keeps v) (hagree : v.AgreesOff stale w)
    (hread : ∀ slot ∈ e.scalarsRead v₀, ¬ stale slot) (ctx : Store.Context ο) :
    e.valueSeen .silent w ctx () = e.valueSeen .silent v ctx () := by
  obtain ⟨c, hstate, hsound⟩ := he
  obtain ⟨t, ht⟩ := hsound.tree
  have hslots : e.scalarsRead v₀ = c.program.loads.filterMap v₀.scalarAt? := by
    rw [scalarsRead, program?, compiled?, hstate]
    rfl
  have hloads : ∀ i ∈ c.program.loads, w.read i ctx = v.read i ctx := by
    intro i hi
    have hbound := bound_of_mem_loads hsound.program hi
    refine hagree.read (fun slot hslot => hread slot ?_) ctx
    rw [scalarAt?_of_keeps hkept hbound] at hslot
    rw [hslots]
    exact List.mem_filterMap.mpr ⟨i, hi, hslot⟩
  rw [valueSeen, valueSeen, hstate]
  rw [ht] at hloads
  simp only [ht]
  exact evaluate_congr hloads fun i _ y => hagree.readIndexed i y ctx

theorem scalarAssigned?_of_target {i : Nat} (hi : e.target? = some i) :
    e.scalarAssigned? v = v.scalarAt? i := by
  rw [scalarAssigned?, hi, Option.bind_some]

/-- The target of an expression, if it has one, is a scalar. -/
def AssignsScalars (v : Variables ο) (e : Expression) : Prop :=
  ∀ i, e.target? = some i → (v.scalarAt? i).isSome = true

theorem AssignsScalars.scalarAt? {i : Nat} (h : e.AssignsScalars v₀) (hkept : v₀.Keeps v)
    (hi : e.target? = some i) : ∃ slot, v.scalarAt? i = some slot ∧
      e.scalarAssigned? v₀ = some slot := by
  obtain ⟨slot, hslot⟩ := Option.isSome_iff_exists.mp (h i hi)
  obtain ⟨b, hb, -⟩ := Variables.scalarAt?_eq_some hslot
  refine ⟨slot, ?_, ?_⟩
  · rw [scalarAt?_of_keeps hkept ⟨b, hb⟩, hslot]
  · rw [scalarAssigned?_of_target hi, hslot]

/-- Solving an expression changes no scalar but the one assigned. -/
theorem solveSeen_agreesOff (he : e.AssignsScalars v₀) (hkept : v₀.Keeps v) (ctx : Store.Context ο) :
    v.AgreesOff (fun slot => e.scalarAssigned? v₀ = some slot)
      (e.solveSeen .silent v ctx ()).2.1 := by
  unfold solveSeen
  split
  · exact .refl _ v
  · split
    · exact .refl _ v
    · rename_i i hi
      obtain ⟨slot, hslot, hassigned⟩ := he.scalarAt? hkept hi
      split
      · rename_i hwrite
        refine (Variables.write_agreesOff hslot hwrite).mono fun s hs => ?_
        rw [hassigned, hs]
      · exact .refl _ v

/-- Two runs of an expression from variables that differ in stale scalars only: it has the same value
or error, and what it assigns is no longer stale. -/
theorem solveSeen_agree (he : e.IsSound v₀) (hscalars : e.AssignsScalars v₀) (hkept : v₀.Keeps v)
    (hagree : v.AgreesOff stale w) (hread : ∀ slot ∈ e.scalarsRead v₀, ¬ stale slot)
    (ctx : Store.Context ο) :
    (e.solveSeen .silent w ctx ()).1 = (e.solveSeen .silent v ctx ()).1 ∧
      ∀ x, (e.solveSeen .silent v ctx ()).1 = .ok x →
        (e.solveSeen .silent v ctx ()).2.1.AgreesOff
          (fun slot => stale slot ∧ e.scalarAssigned? v₀ ≠ some slot)
          (e.solveSeen .silent w ctx ()).2.1 := by
  have hvalue := valueSeen_agree he hkept hagree hread ctx
  unfold solveSeen
  rw [hvalue]
  rcases e.valueSeen .silent v ctx () with ⟨r, u⟩
  cases r with
  | error cause =>
    refine ⟨rfl, fun x h => ?_⟩
    cases h
  | ok x =>
    cases hi : e.target? with
    | none =>
      refine ⟨rfl, fun _ _ => hagree.mono fun slot hslot => ⟨hslot, fun h => ?_⟩⟩
      rw [scalarAssigned?, hi] at h
      cases h
    | some i =>
      obtain ⟨slot, hslot, hassigned⟩ := hscalars.scalarAt? hkept hi
      have hslot' : w.scalarAt? i = some slot := by
        rw [Variables.scalarAt?, hagree.bindings]
        exact hslot
      have hwrite : ∀ t : Variables ο, Cells.write t i x ctx = t.write i x ctx := fun _ => rfl
      simp only [hwrite, Variables.write_scalarAt hslot, Variables.write_scalarAt hslot',
        hagree.size]
      by_cases hlt : slot < v.scalars.size
      · simp only [if_pos hlt]
        refine ⟨trivial, fun _ _ => (hagree.setAt hlt x).mono fun s hs => ⟨hs.1, fun heq => ?_⟩⟩
        rw [hassigned] at heq
        exact hs.2 (Option.some.inj heq).symm
      · simp only [if_neg hlt]
        refine ⟨trivial, fun y h => ?_⟩
        cases h

end Expression

namespace Utility

variable {v₀ v w : Variables ο} {stale : Nat → Prop} {row : Row}

/-- All that a row refers to is bound, and what it assigns to is a scalar. -/
structure Row.IsSound (v : Variables ο) (row : Row) : Prop where
  filter : ∀ e ∈ row.filter, e.IsSound v
  expression : row.expression.IsSound v
  scalars : row.expression.AssignsScalars v

/-- The scalar is read or assigned in the row. -/
def Row.Touches (v : Variables ο) (slot : Nat) (row : Row) : Prop :=
  (∃ e ∈ row.filter, slot ∈ e.scalarsRead v) ∨ slot ∈ row.expression.scalarsRead v ∨
    row.expression.scalarAssigned? v = some slot

/-- The row assigns the scalar in any case, and without a look at it. -/
structure Row.Defines (v : Variables ο) (slot : Nat) (row : Row) : Prop where
  unfiltered : row.filter = none
  assigned : row.expression.scalarAssigned? v = some slot
  unread : slot ∉ row.expression.scalarsRead v

/-- The first row that touches the scalar, if any does, defines it. -/
def DefinedFirst (v : Variables ο) (slot : Nat) : List Row → Prop
  | [] => True
  | row :: rows => row.Defines v slot ∨ ¬ row.Touches v slot ∧ DefinedFirst v slot rows

theorem Row.applies_agree (hrow : row.IsSound v₀) (hkept : v₀.Keeps v) (hagree : v.AgreesOff stale w)
    (hread : ∀ e ∈ row.filter, ∀ slot ∈ e.scalarsRead v₀, ¬ stale slot) (ctx : Context ο) :
    row.applies .silent w ctx () = row.applies .silent v ctx () := by
  unfold applies
  cases hfilter : row.filter with
  | none => rfl
  | some e =>
    simp only [valueSeen_agree (hrow.filter e hfilter) hkept hagree (hread e hfilter)]

/-- A row changes no scalar but the one that it assigns to. -/
theorem Row.term_agreesOff (hrow : row.IsSound v₀) (hkept : v₀.Keeps v) (k : Nat) (ctx : Context ο) :
    v.AgreesOff (fun slot => row.expression.scalarAssigned? v₀ = some slot)
      (row.term .silent k v ctx ()).2.1 := by
  have hsolve := solveSeen_agreesOff hrow.scalars hkept ctx
  unfold Row.term
  split
  · exact .refl _ v
  · exact .refl _ v
  · simp only
    split
    · exact .refl _ v
    · rcases hsolved : row.expression.solveSeen .silent v ctx () with ⟨r, v₁, u⟩
      rw [hsolved] at hsolve
      cases r with
      | error cause => exact hsolve
      | ok x => exact hsolve

/-- Two runs of a row from variables that differ in stale scalars only, none of which it reads: it
gives the same, and what it defines is no longer stale. -/
theorem Row.term_agree (hrow : row.IsSound v₀) (hkept : v₀.Keeps v) (hagree : v.AgreesOff stale w)
    (hstale : ∀ slot, stale slot → row.Defines v₀ slot ∨ ¬ row.Touches v₀ slot) (k : Nat)
    (ctx : Context ο) :
    (row.term .silent k w ctx ()).1 = (row.term .silent k v ctx ()).1 ∧
      ∀ x, (row.term .silent k v ctx ()).1 = .ok x →
        (row.term .silent k v ctx ()).2.1.AgreesOff (fun slot => stale slot ∧ ¬ row.Defines v₀ slot)
          (row.term .silent k w ctx ()).2.1 := by
  have hfilter : ∀ e ∈ row.filter, ∀ slot ∈ e.scalarsRead v₀, ¬ stale slot := by
    intro e he slot hslot hs
    rcases hstale slot hs with hdefines | htouches
    · rw [hdefines.unfiltered] at he
      cases he
    · exact htouches (.inl ⟨e, he, hslot⟩)
  have hread : ∀ slot ∈ row.expression.scalarsRead v₀, ¬ stale slot := by
    intro slot hslot hs
    rcases hstale slot hs with hdefines | htouches
    · exact hdefines.unread hslot
    · exact htouches (.inr (.inl hslot))
  have happlies := applies_agree hrow hkept hagree hfilter ctx
  obtain ⟨hvalue, hsolved⟩ :=
    solveSeen_agree hrow.expression hrow.scalars hkept hagree hread ctx
  unfold Row.term
  rw [happlies]
  cases hcase : row.applies .silent v ctx () with
  | mk r u =>
    rcases r with e | _ | _
    · exact ⟨rfl, fun _ h => nomatch h⟩
    -- the row does not apply, so it has a filter
    · refine ⟨rfl, fun _ _ => hagree.mono fun slot hs => ⟨hs, fun hdefines => ?_⟩⟩
      rw [Row.applies, hdefines.unfiltered] at hcase
      cases hcase
    · simp only
      split
      · rename_i hskipped
        refine ⟨rfl, fun _ _ => hagree.mono fun slot hs => ⟨hs, fun hdefines => ?_⟩⟩
        have hnone := Option.isNone_iff_eq_none.mp (Bool.and_eq_true_iff.mp hskipped).1
        have hassigned := hdefines.assigned
        rw [scalarAssigned?, hnone] at hassigned
        cases hassigned
      · rcases hv : row.expression.solveSeen .silent v ctx () with ⟨r, v₁, u₁⟩
        rcases hw : row.expression.solveSeen .silent w ctx () with ⟨r', w₁, u₂⟩
        rw [hv, hw] at hvalue
        rw [hv, hw] at hsolved
        obtain rfl : r' = r := hvalue
        cases r' with
        | error cause => exact ⟨rfl, fun _ h => nomatch h⟩
        | ok x =>
          refine ⟨rfl, fun _ _ => (hsolved x rfl).mono fun slot hs => ⟨hs.1, fun hdefines => ?_⟩⟩
          exact hs.2 hdefines.assigned

theorem sumRows_agreesOff (u : Utility) {rows : List Row} (hrows : ∀ row ∈ rows, row.IsSound v₀)
    (hstale : ∀ row ∈ rows, ∀ slot, row.expression.scalarAssigned? v₀ = some slot → stale slot)
    (hkept : v₀.Keeps v) (k : Nat) (ctx : Context ο) (number : Nat) (sum : Float) :
    v.AgreesOff stale (sumRows .silent u k ctx number rows sum v ()).2.1 := by
  induction rows generalizing number sum v with
  | nil => exact .refl stale v
  | cons row rows ih =>
    have hfirst := Row.term_agreesOff (hrows row List.mem_cons_self) hkept k ctx
    have hfirst := hfirst.mono (hstale row List.mem_cons_self)
    rw [sumRows]
    rcases hterm : row.term .silent k v ctx () with ⟨r, v₁, seen⟩
    rw [hterm] at hfirst
    have hrest := fun number sum => ih (fun r hr => hrows r (List.mem_cons_of_mem _ hr))
      (fun r hr => hstale r (List.mem_cons_of_mem _ hr)) (hfirst.keeps hkept) number sum
    rcases r with ⟨e, cause⟩ | _ | x
    · exact hfirst
    · exact hfirst.trans (hrest _ _)
    · exact hfirst.trans (hrest _ _)

/-- Two runs of rows that define every stale scalar before they read it have the same sum, or stop at
the same error. -/
theorem sumRows_agree (u : Utility) {rows : List Row} (hrows : ∀ row ∈ rows, row.IsSound v₀)
    (hkept : v₀.Keeps v) (hagree : v.AgreesOff stale w)
    (hfirst : ∀ slot, stale slot → DefinedFirst v₀ slot rows) (k : Nat) (ctx : Context ο)
    (number : Nat) (sum : Float) :
    (sumRows .silent u k ctx number rows sum w ()).1 =
      (sumRows .silent u k ctx number rows sum v ()).1 := by
  induction rows generalizing number sum v w stale with
  | nil => rfl
  | cons row rows ih =>
    have hrow := hrows row List.mem_cons_self
    have hcases : ∀ slot, stale slot → row.Defines v₀ slot ∨ ¬ row.Touches v₀ slot :=
      fun slot hs => (hfirst slot hs).imp_right And.left
    have hrest : ∀ slot, stale slot ∧ ¬ row.Defines v₀ slot → DefinedFirst v₀ slot rows :=
      fun slot hs => ((hfirst slot hs.1).resolve_left hs.2).2
    have hkept₁ := (Row.term_agreesOff hrow hkept k ctx).keeps hkept
    obtain ⟨hterm, hagree₁⟩ := Row.term_agree hrow hkept hagree hcases k ctx
    rw [sumRows, sumRows]
    rcases hv : row.term .silent k v ctx () with ⟨r, v₁, seen⟩
    rcases hw : row.term .silent k w ctx () with ⟨r', w₁, seen'⟩
    rw [hv, hw] at hterm
    rw [hv, hw] at hagree₁
    rw [hv] at hkept₁
    obtain rfl : r' = r := hterm
    have hrows₁ : ∀ r ∈ rows, r.IsSound v₀ := fun r hr => hrows r (List.mem_cons_of_mem _ hr)
    rcases r' with ⟨e, cause⟩ | _ | x
    · rfl
    · exact ih hrows₁ hkept₁ (hagree₁ none rfl) hrest _ _
    · exact ih hrows₁ hkept₁ (hagree₁ (some x) rfl) hrest _ _

/-- The scalars that a utility assigns, by their slots. -/
def scalarsAssigned (v : Variables ο) (u : Utility) : List Nat :=
  u.rows.filterMap fun row => row.expression.scalarAssigned? v

/-- What keeps the alternatives of a utility apart: it assigns nothing but scalars, each of them
first of all. -/
structure Separate (v : Variables ο) (u : Utility) : Prop where
  sound : ∀ row ∈ u.rows, row.IsSound v
  first : ∀ slot ∈ u.scalarsAssigned v, DefinedFirst v slot u.rows

theorem trace_eq (u : Utility) (v : Variables ο) (ctx : Context ο) (alternative : Nat) :
    u.trace v ctx alternative =
      if alternative = 0 ∨ u.alternatives.length < alternative then
        (.error (.invalid (.noAlternative u.name alternative)), v)
      else
        ((u.ofAlternative .silent (alternative - 1) v ctx ()).1,
          (u.ofAlternative .silent (alternative - 1) v ctx ()).2.1) := by
  unfold trace traceSeen
  simp only [Bool.or_eq_true, beq_iff_eq, decide_eq_true_eq, gt_iff_lt]
  split
  · rfl
  · rfl

theorem trace_succ {u : Utility} {k : Nat} (hk : k < u.alternatives.length) (v : Variables ο)
    (ctx : Context ο) : (u.trace v ctx (k + 1)).1 = (u.ofAlternative .silent k v ctx ()).1 := by
  rw [trace_eq, if_neg (by omega), Nat.add_sub_cancel]

section Separate

variable {u : Utility} (hu : u.Separate v₀)

include hu

theorem Separate.leaves (hkept : v₀.Keeps v) (k : Nat) (ctx : Context ο) :
    v.AgreesOff (· ∈ u.scalarsAssigned v₀) (u.ofAlternative .silent k v ctx ()).2.1 :=
  sumRows_agreesOff u hu.sound
    (fun row hrow _ hslot => List.mem_filterMap.mpr ⟨row, hrow, hslot⟩) hkept k _ 1 0.0

theorem Separate.ofAlternative (hkept : v₀.Keeps v)
    (hagree : v.AgreesOff (· ∈ u.scalarsAssigned v₀) w) (k : Nat) (ctx : Context ο) :
    (u.ofAlternative .silent k w ctx ()).1 = (u.ofAlternative .silent k v ctx ()).1 :=
  sumRows_agree u hu.sound hkept hagree hu.first k _ 1 0.0

/-- Whatever the alternatives so far have left behind, the rest are as they are from the start. -/
theorem Separate.fillFrom (hkept : v₀.Keeps v) (hagree : v.AgreesOff (· ∈ u.scalarsAssigned v₀) w)
    (k : Nat) (slots : List Float) (ctx : Context ο) :
    (fillFrom .silent u ctx k slots w ()).1.map (fun _ => (fillFrom .silent u ctx k slots w ()).2.1) =
      (List.range' k slots.length).mapM fun j => (u.ofAlternative .silent j v ctx ()).1 := by
  induction slots generalizing k w with
  | nil => rfl
  | cons slot slots ih =>
    have hfirst := hu.ofAlternative hkept hagree k ctx
    have hleft := hu.leaves (hagree.keeps hkept) k ctx
    rw [List.length_cons, List.range'_succ, List.mapM_cons, ← hfirst, Utility.fillFrom]
    rcases halternative : u.ofAlternative .silent k w ctx () with ⟨r, w₁, seen⟩
    rw [halternative] at hleft
    cases r with
    | error e => rfl
    | ok x =>
      have hrest := ih (hagree.trans hleft) (k + 1)
      simp only [bind, Except.bind]
      rw [← hrest]
      rcases Utility.fillFrom .silent u ctx (k + 1) slots w₁ () with ⟨r, xs, w₂, seen'⟩
      cases r with
      | error e => rfl
      | ok _ => rfl

theorem Separate.solve (hkept : v₀.Keeps v) (hagree : v.AgreesOff (· ∈ u.scalarsAssigned v₀) w)
    (ctx : Context ο) : (u.solve w ctx).1 = (List.range u.alternatives.length).mapM fun k =>
      (u.ofAlternative .silent k v ctx ()).1 := by
  have hfill := hu.fillFrom hkept hagree 0 (u.alternatives.map fun _ => 0.0) ctx
  rw [List.length_map, ← List.range_eq_range'] at hfill
  rw [← hfill, Utility.solve, solveSeen, fill, List.length_map, bne_self_eq_false]
  simp only [Bool.false_eq_true, if_false]
  rcases Utility.fillFrom .silent u ctx 0 (u.alternatives.map fun _ => 0.0) w () with
    ⟨r, xs, w₁, seen⟩
  cases r with
  | error e => rfl
  | ok _ => rfl

theorem Separate.fillFrom_leaves (hkept : v₀.Keeps v) (k : Nat) (slots : List Float)
    (ctx : Context ο) :
    v.AgreesOff (· ∈ u.scalarsAssigned v₀) (Utility.fillFrom .silent u ctx k slots v ()).2.2.1 := by
  induction slots generalizing k v with
  | nil => exact .refl _ v
  | cons slot slots ih =>
    have hfirst := hu.leaves hkept k ctx
    rw [Utility.fillFrom]
    rcases halternative : u.ofAlternative .silent k v ctx () with ⟨r, v₁, seen⟩
    rw [halternative] at hfirst
    cases r with
    | error e => exact hfirst
    | ok x => exact hfirst.trans (ih (hfirst.keeps hkept) (k + 1))

theorem Separate.solve_leaves (hkept : v₀.Keeps v) (ctx : Context ο) :
    v.AgreesOff (· ∈ u.scalarsAssigned v₀) (u.solve v ctx).2 := by
  have hfill := hu.fillFrom_leaves hkept 0 (u.alternatives.map fun _ => 0.0) ctx
  rw [Utility.solve, solveSeen, fill, List.length_map, bne_self_eq_false]
  simp only [Bool.false_eq_true, if_false]
  rcases hfilled : Utility.fillFrom .silent u ctx 0 (u.alternatives.map fun _ => 0.0) v () with
    ⟨r, xs, w₁, seen⟩
  rw [hfilled] at hfill
  cases r with
  | error e => exact hfill
  | ok _ => exact hfill

theorem Separate.trace_leaves (hkept : v₀.Keeps v) (ctx : Context ο) (alternative : Nat) :
    v.AgreesOff (· ∈ u.scalarsAssigned v₀) (u.trace v ctx alternative).2 := by
  rw [trace_eq]
  split
  · exact .refl _ v
  · exact hu.leaves hkept (alternative - 1) ctx

theorem Separate.trace (hkept : v₀.Keeps v) (hagree : v.AgreesOff (· ∈ u.scalarsAssigned v₀) w)
    (ctx : Context ο) (alternative : Nat) :
    (u.trace w ctx alternative).1 = (u.trace v ctx alternative).1 := by
  rw [trace_eq, trace_eq]
  split
  · rfl
  · exact hu.ofAlternative hkept hagree (alternative - 1) ctx

omit hu

/-- The variables after traces of some alternatives, of which any may have failed. -/
def traces (u : Utility) (v : Variables ο) (ctx : Context ο) (alternatives : List Nat) : Variables ο :=
  alternatives.foldl (fun v alternative => (u.trace v ctx alternative).2) v

include hu in
theorem Separate.traces_leave (hkept : v₀.Keeps v) (ctx : Context ο) (alternatives : List Nat) :
    v.AgreesOff (· ∈ u.scalarsAssigned v₀) (u.traces v ctx alternatives) := by
  induction alternatives generalizing v with
  | nil => exact .refl _ v
  | cons alternative alternatives ih =>
    have hfirst := hu.trace_leaves hkept ctx alternative
    exact hfirst.trans (ih (hfirst.keeps hkept))

end Separate

section Compile

open Model (RowSpec UtilitySpec)

variable {spec : UtilitySpec} {number : Nat}

theorem compileFilter_isSound {spec' : RowSpec} {filter : Option Expression}
    (h : compileFilter spec number spec' v = (.ok filter, w)) : ∀ e ∈ filter, e.IsSound w := by
  unfold compileFilter at h
  simp only at h
  split at h
  · cases h
    exact fun _ he => nomatch he
  · split at h
    · cases h
    · rename_i hcompiled
      split at h
      · cases h
      · cases h
        intro e he
        cases he
        exact ofText?_isSound hcompiled

theorem compileRow_isSound {spec' : RowSpec} (h : compileRow spec number spec' v = (.ok row, w)) :
    (∀ e ∈ row.filter, e.IsSound w) ∧ row.expression.IsSound w := by
  unfold compileRow at h
  split at h
  · cases h
  · rename_i filter v₁ hfilter
    split at h
    · cases h
    · rename_i hcompiled
      split at h
      · cases h
      · cases h
        have hgrows := Expression.ofText?_resolving resolving_grows spec'.text v₁
        rw [hcompiled] at hgrows
        exact ⟨fun e he => (compileFilter_isSound hfilter e he).mono hgrows,
          ofText?_isSound hcompiled⟩

theorem compileRow_of_unfiltered (spec : UtilitySpec) (number : Nat) (spec' : RowSpec)
    {c : Compiled} (hnone : spec'.filter = none)
    (hcompile : Expression.compile spec'.text v = (.ok c, w))
    (hcheck : checkRow spec number spec' ⟨spec'.text, .compiled c⟩ = .ok ()) :
    compileRow spec number spec' v =
      (.ok ⟨none, ⟨spec'.text, .compiled c⟩, spec'.coefficients⟩, w) := by
  have hblank : String.ofList (Text.trim "".toList) = "" := by
    cbv
  have hfilter : compileFilter spec number spec' v = (.ok none, v) := by
    rw [compileFilter, hnone, Option.getD_none, hblank]
    rfl
  have hexpression : ofText? spec'.text v = (.ok ⟨spec'.text, .compiled c⟩, w) :=
    ofText?_eq_ok_iff.mpr ⟨c, hcompile, rfl⟩
  simp only [compileRow, hfilter, hexpression, hcheck]

theorem compileRows_isSound {specs : List RowSpec} {rows : List Row}
    (h : compileRows spec number specs v = (.ok rows, w)) :
    ∀ row ∈ rows, (∀ e ∈ row.filter, e.IsSound w) ∧ row.expression.IsSound w := by
  induction specs generalizing number v rows with
  | nil =>
    cases h
    exact fun _ hrow => nomatch hrow
  | cons spec' specs ih =>
    rw [compileRows] at h
    split at h
    · cases h
    · rename_i first v₁ hfirst
      split at h
      · cases h
      · rename_i rest v₂ hrest
        cases h
        have hgrows := compileRows_resolving resolving_grows spec (number + 1) specs v₁
        rw [hrest] at hgrows
        intro row hrow
        rcases List.mem_cons.mp hrow with rfl | hrow
        · obtain ⟨hfilter, hexpression⟩ := compileRow_isSound hfirst
          exact ⟨fun e he => (hfilter e he).mono hgrows, hexpression.mono hgrows⟩
        · exact ih hrest row hrow

theorem compile_isSound {u : Utility} (h : compile spec v = (.ok u, w)) :
    ∀ row ∈ u.rows, (∀ e ∈ row.filter, e.IsSound w) ∧ row.expression.IsSound w := by
  unfold compile at h
  split at h
  · cases h
  · split at h
    · cases h
    · rename_i hrows
      cases h
      exact compileRows_isSound hrows

end Compile

/-- Where a utility assigns nothing but scalars, each of them first of all, it gives every alternative
the utility that this has alone, whatever the scalars hold and whichever came before it. -/
theorem solve_eq_traces {spec : Model.UtilitySpec} {u : Utility}
    (hcompile : compile spec v = (.ok u, v₀))
    (hscalars : ∀ row ∈ u.rows, row.expression.AssignsScalars v₀)
    (hfirst : ∀ slot ∈ u.scalarsAssigned v₀, DefinedFirst v₀ slot u.rows)
    (hkept : v₀.Keeps w) (ctx : Context ο) :
    ((∃ xs, (u.solve w ctx).1 = .ok xs) ↔
        ∀ k < u.alternatives.length, ∃ x, (u.trace w ctx (k + 1)).1 = .ok x) ∧
      (∀ xs, (u.solve w ctx).1 = .ok xs → xs.length = u.alternatives.length ∧
        ∀ (k : Nat) (hk : k < xs.length), (u.trace w ctx (k + 1)).1 = .ok xs[k]) ∧
      ∀ w', w.AgreesOff (· ∈ u.scalarsAssigned v₀) w' → ∀ earlier : List Nat,
        (u.solve (u.traces w' ctx earlier) ctx).1 = (u.solve w ctx).1 ∧
          ∀ k, (u.trace (u.traces w' ctx earlier) ctx k).1 = (u.trace w ctx k).1 := by
  have hu : u.Separate v₀ := by
    refine ⟨fun row hrow => ?_, hfirst⟩
    obtain ⟨hfilter, hexpression⟩ := compile_isSound hcompile row hrow
    exact ⟨hfilter, hexpression, hscalars row hrow⟩
  have hsolve := hu.solve hkept (.refl _ w) ctx
  have hvalues : ∀ xs, (u.solve w ctx).1 = .ok xs → xs.length = u.alternatives.length ∧
      ∀ (k : Nat) (hk : k < xs.length), (u.trace w ctx (k + 1)).1 = .ok xs[k] := by
    intro xs hxs
    have hall := mapM_eq_ok_iff.mp (hsolve.symm.trans hxs)
    have hlen : xs.length = u.alternatives.length := by
      rw [← hall.length_eq, List.length_range]
    refine ⟨hlen, fun k hk => ?_⟩
    have hk' : k < u.alternatives.length := hlen ▸ hk
    have hx := hall.get (by rw [List.length_range]; exact hk') hk
    rw [trace_succ hk']
    simpa using hx
  refine ⟨⟨fun ⟨xs, hxs⟩ k hk => ?_, fun hall => ?_⟩, hvalues, fun w' hagree earlier => ?_⟩
  · obtain ⟨hlen, htrace⟩ := hvalues xs hxs
    exact ⟨_, htrace k (hlen ▸ hk)⟩
  · rw [hsolve]
    refine exists_mapM_eq_ok fun k hk => ?_
    have hk := List.mem_range.mp hk
    rw [← trace_succ hk]
    exact hall k hk
  · have hleft := hagree.trans (hu.traces_leave (hagree.keeps hkept) ctx earlier)
    exact ⟨(hu.solve hkept hleft ctx).trans hsolve.symm, hu.trace hkept hleft ctx⟩

section Numbered

/-- Two alternatives that put their own numbers into one scalar. -/
def numbered (a b : Float) : Model.UtilitySpec where
  name := "numbers"
  alternatives := ["car", "bus"]
  rows := [{ text := "x" ++ " = " ++ "$alt" }, { text := "x", coefficients := [a, b] }]

def numberedData (x : Float) : Variables Unit where
  scalars := ⟨#[("x", x)]⟩
  bindings := #[⟨"$alt", .loop .alternative⟩, ⟨"x", .scalar 0⟩]

def numberedUtility (a b : Float) : Utility where
  name := "numbers"
  alternatives := ["car", "bus"]
  rows := [⟨none, ⟨"x = $alt", .compiled ⟨Tree.program (.load ⟨"$alt", 0⟩), some 1⟩⟩, []⟩,
    ⟨none, ⟨"x", .compiled ⟨Tree.program (.load ⟨"x", 1⟩), none⟩⟩, [a, b]⟩]

set_option maxRecDepth 20000 in
theorem compile_numbered (a b : Float) :
    compile (numbered a b) {} = (.ok (numberedUtility a b), numberedData 0.0) := by
  have hassign : Variables.resolveAssign "x"
      ({ bindings := #[⟨"$alt", .loop .alternative⟩] } : Variables Unit) =
      (some 1, numberedData 0.0) :=
    Variables.resolveAssign_of_free (by cbv) (by cbv) (by cbv) (by cbv)
  have hletters : "x".toList = ['x'] := by
    cbv
  have hname : ∀ c ∈ "x".toList, isDelimiter c = false := by
    intro c hc
    rw [hletters] at hc
    cases List.mem_singleton.mp hc
    cbv
  have hfirst : Expression.compile ("x" ++ " = " ++ "$alt") ({} : Variables Unit) =
      (.ok ⟨Tree.program (.load ⟨"$alt", 0⟩), some 1⟩, numberedData 0.0) :=
    (compile_assignment_eq_ok_iff hname).mpr
      ⟨{ bindings := #[⟨"$alt", .loop .alternative⟩] }, 1, by cbv, rfl, hassign, rfl⟩
  have hsecond : ∀ x, Expression.compile "x" (numberedData x) =
      (.ok ⟨Tree.program (.load ⟨"x", 1⟩), none⟩, numberedData x) := by
    intro x
    cbv
  have hrow := compileRow_of_unfiltered (numbered a b) 1 { text := "x" ++ " = " ++ "$alt" } rfl
    hfirst rfl
  have hrow' := compileRow_of_unfiltered (numbered a b) 2 { text := "x", coefficients := [a, b] } rfl
    (hsecond 0.0) rfl
  simp only [compile, numbered, compileRows, Nat.reduceAdd] at hrow hrow' ⊢
  simp only [hrow, hrow']
  rfl

/-- An alternative after both of them have been traced from another state, and alone. -/
theorem solve_eq_traces_numbered : ∃ u v,
    compile (numbered 1.0 2.0) ({} : Variables Unit) = (.ok u, v) ∧
    (u.trace (u.traces (numberedData 7.0) {} [1, 2]) ({} : Context Unit) 1).1 =
      (u.trace v ({} : Context Unit) 1).1 := by
  have hcompile := compile_numbered 1.0 2.0
  have hscalars : ∀ row ∈ (numberedUtility 1.0 2.0).rows,
      row.expression.AssignsScalars (numberedData 0.0) := by
    intro row hrow i hi
    rcases List.mem_cons.mp hrow with rfl | hrow
    · cases hi
      rfl
    · cases List.mem_singleton.mp hrow
      cases hi
  have hfirst : ∀ slot ∈ (numberedUtility 1.0 2.0).scalarsAssigned (numberedData 0.0),
      DefinedFirst (numberedData 0.0) slot (numberedUtility 1.0 2.0).rows := by
    intro slot hslot
    obtain rfl : slot = 0 := List.mem_singleton.mp hslot
    exact .inl ⟨rfl, rfl, fun h => nomatch h⟩
  have hagree : (numberedData 0.0).AgreesOff
      (· ∈ (numberedUtility 1.0 2.0).scalarsAssigned (numberedData 0.0)) (numberedData 7.0) := by
    refine ⟨rfl, rfl, fun slot hslot => ?_⟩
    cases slot with
    | zero => exact (hslot (List.mem_singleton.mpr rfl)).elim
    | succ slot => rfl
  obtain ⟨-, -, hseparate⟩ :=
    solve_eq_traces hcompile hscalars hfirst (fun _ _ h => h) ({} : Context Unit)
  exact ⟨_, _, hcompile, (hseparate _ hagree [1, 2]).2 1⟩

end Numbered

end Utility

end ChoiceModel
