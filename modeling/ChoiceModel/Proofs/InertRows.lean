import ChoiceModel.Proofs.Alternatives
import ChoiceModel.Proofs.Expression.ForwardPass

/-! Rows that assign nothing and have the coefficient zero for an alternative. The run of that alternative
goes on behind such a row as if the row were not there; but it evaluates the filter of the row on its way, and
stops at the row if the filter has no value. -/

namespace ChoiceModel

open Expression Store

variable {σ ο τ : Type}

/-- The error once a further row stands behind the first `place` rows of its utility. -/
def Model.Error.renumbered (place : Nat) : Error → Error
  | .solve utility alternative row text cause =>
    .solve utility alternative (if row ≤ place then row else row + 1) text cause
  | e => e

namespace Utility

/-- The row assigns nothing, and its coefficient for the alternative counted `k` from 0 is zero. -/
structure Row.IsInert (row : Row) (k : Nat) : Prop where
  assignsNothing : row.expression.target? = none
  weighsNothing : ∃ c, row.coefficients[k]? = some c ∧ (c == 0.0) = true

variable [Cells σ (Context ο)] {obs : Observer τ} {u : Utility} {row : Row} {k number place : Nat}
  {ctx : Context ο} {table : σ} {seen : τ}

/-- An inert row gives nothing whether it applies or not, and leaves the table alone. -/
theorem Row.term_of_inert (h : row.IsInert k) : row.term obs k table ctx seen =
    match row.applies obs table ctx seen with
    | (.error e, seen) => (.error e, table, seen)
    | (.ok _, seen) => (.ok none, table, seen) := by
  obtain ⟨c, hc, hzero⟩ := h.weighsNothing
  have hskipped : (row.expression.target?.isNone && row.coefficients[k]?.any (· == 0.0)) = true := by
    rw [h.assignsNothing, hc, Option.any_some, hzero]
    rfl
  unfold Row.term
  rcases row.applies obs table ctx seen with ⟨e | _ | _, seen⟩
  · rfl
  · rfl
  · simp only [hskipped, if_true]

/-- The utility with other rows. -/
def withRows (u : Utility) (rows : List Row) : Utility := { u with rows }

/-- A run over rows has nothing from its utility but the names of that and of the alternatives. -/
theorem sumRows_withRows (u : Utility) (others rows : List Row) (sum : Float) :
    sumRows obs (u.withRows others) k ctx number rows sum table seen =
      sumRows obs u k ctx number rows sum table seen := by
  induction rows generalizing number sum table seen with
  | nil => rfl
  | cons row rows ih =>
    rw [sumRows, sumRows]
    rcases row.term obs k table ctx seen with ⟨⟨e, cause⟩ | _ | x, table₁, seen₁⟩
    · rfl
    · exact ih _
    · exact ih _

theorem sumRows_append (rows more : List Row) (sum : Float) :
    sumRows obs u k ctx number (rows ++ more) sum table seen =
      match sumRows obs u k ctx number rows sum table seen with
      | (.ok sum, table, seen) => sumRows obs u k ctx (number + rows.length) more sum table seen
      | (.error e, table, seen) => (.error e, table, seen) := by
  induction rows generalizing number sum table seen with
  | nil => rfl
  | cons row rows ih =>
    rw [List.cons_append, sumRows, sumRows, List.length_cons, Nat.add_comm rows.length, ← Nat.add_assoc]
    rcases row.term obs k table ctx seen with ⟨⟨e, cause⟩ | _ | x, table₁, seen₁⟩
    · rfl
    · exact ih _
    · exact ih _

/-- A run that fails names one of its rows. -/
theorem sumRows_eq_error {rows : List Row} {sum : Float} {e : Model.Error}
    (h : (sumRows obs u k ctx number rows sum table seen).1 = .error e) :
    ∃ row text cause, e = .solve u.name (u.alternatives.getD k "") row text cause ∧
      row < number + rows.length := by
  induction rows generalizing number sum table seen with
  | nil => cases h
  | cons row rows ih =>
    rw [sumRows] at h
    rw [List.length_cons, Nat.add_comm rows.length, ← Nat.add_assoc]
    rcases hterm : row.term obs k table ctx seen with ⟨⟨e, cause⟩ | _ | x, table₁, seen₁⟩ <;>
      rw [hterm] at h
    · cases h
      exact ⟨number, _, _, rfl, by omega⟩
    · exact ih h
    · exact ih h

/-- Rows that are moved on by one place give what they gave, with the row of an error moved on as well. -/
theorem sumRows_succ (hplace : place < number) (rows : List Row) (sum : Float) :
    sumRows obs u k ctx (number + 1) rows sum table seen =
      ((sumRows obs u k ctx number rows sum table seen).1.mapError (Model.Error.renumbered place),
        (sumRows obs u k ctx number rows sum table seen).2) := by
  induction rows generalizing number sum table seen with
  | nil => rfl
  | cons row rows ih =>
    rw [sumRows, sumRows]
    rcases row.term obs k table ctx seen with ⟨⟨e, cause⟩ | _ | x, table₁, seen₁⟩
    · simp only [Except.mapError, Model.Error.renumbered, if_neg (Nat.not_le.mpr hplace)]
    · exact ih (Nat.lt_succ_of_lt hplace) _
    · exact ih (Nat.lt_succ_of_lt hplace) _

theorem trace_withRows {alternative : Nat} (hpos : 0 < alternative)
    (hle : alternative ≤ u.alternatives.length) (rows : List Row) :
    (u.withRows rows).trace table ctx alternative =
      ((sumRows .silent u (alternative - 1) { ctx with alternative } 1 rows 0.0 table ()).1,
        (sumRows .silent u (alternative - 1) { ctx with alternative } 1 rows 0.0 table ()).2.1) := by
  have hvalid : (alternative == 0 || alternative > (u.withRows rows).alternatives.length) = false := by
    rw [Bool.or_eq_false_iff, beq_eq_false_iff_ne, decide_eq_false_iff_not]
    exact ⟨hpos.ne', Nat.not_lt.mpr hle⟩
  unfold trace traceSeen
  simp only [hvalid, Bool.false_eq_true, if_false, ofAlternative, Nat.sub_add_cancel hpos,
    sumRows_withRows]
  rfl

theorem trace_withRows_of_invalid {alternative : Nat}
    (h : ¬ (0 < alternative ∧ alternative ≤ u.alternatives.length)) (rows : List Row) :
    (u.withRows rows).trace table ctx alternative =
      (.error (.invalid (.noAlternative u.name alternative)), table) := by
  have hinvalid : (alternative == 0 || alternative > (u.withRows rows).alternatives.length) = true := by
    rw [Bool.or_eq_true, beq_iff_eq, decide_eq_true_eq]
    change alternative = 0 ∨ u.alternatives.length < alternative
    omega
  unfold trace traceSeen
  rw [if_pos hinvalid]
  rfl

theorem Row.applies_of_isOk (h : ∀ filter ∈ row.filter, (filter.value table ctx).isOk = true) :
    ∃ applies, row.applies .silent table ctx () = (.ok applies, ()) := by
  unfold Row.applies
  cases hfilter : row.filter with
  | none => exact ⟨true, rfl⟩
  | some filter =>
    have hvalue := h filter hfilter
    unfold Expression.value at hvalue
    rcases hseen : filter.valueSeen .silent table ctx () with ⟨e | x, seen⟩
    · rw [hseen] at hvalue
      cases hvalue
    · simp only [hseen]
      exact ⟨_, rfl⟩

theorem Row.applies_of_error {filter : Expression} {e : EvalError} (hfilter : row.filter = some filter)
    (h : filter.value table ctx = .error e) :
    row.applies .silent table ctx () = (.error (filter, e), ()) := by
  unfold Expression.value at h
  unfold Row.applies
  rcases hseen : filter.valueSeen .silent table ctx () with ⟨r, seen⟩
  rw [hseen] at h
  subst h
  simp only [hfilter, hseen]

/-- A row that is inert for an alternative can be put anywhere in a utility. As long as its filter, if it has
one and the run gets there, has a value, the utility and the table stay the same, or the error does but for
the number of its row. A filter without a value ends the run with its own error. -/
theorem trace_insert (u : Utility) {before after : List Row} {alternative : Nat}
    (hrow : row.IsInert (alternative - 1)) (table : σ) (ctx : Context ο) :
    ((∀ x reached, (u.withRows before).trace table ctx alternative = (.ok x, reached) →
        ∀ filter ∈ row.filter, (filter.value reached { ctx with alternative }).isOk = true) →
      (u.withRows (before ++ row :: after)).trace table ctx alternative =
        (((u.withRows (before ++ after)).trace table ctx alternative).1.mapError
            (Model.Error.renumbered before.length),
          ((u.withRows (before ++ after)).trace table ctx alternative).2)) ∧
    ∀ x reached filter e, (u.withRows before).trace table ctx alternative = (.ok x, reached) →
      row.filter = some filter → filter.value reached { ctx with alternative } = .error e →
      (u.withRows (before ++ row :: after)).trace table ctx alternative =
        (.error (.solve u.name (u.alternatives.getD (alternative - 1) "") (before.length + 1)
          filter.text e), reached) := by
  by_cases hvalid : 0 < alternative ∧ alternative ≤ u.alternatives.length
  · obtain ⟨hpos, hle⟩ := hvalid
    simp only [trace_withRows hpos hle, sumRows_append]
    rcases hfront : sumRows .silent u (alternative - 1) { ctx with alternative } 1 before 0.0 table ()
      with ⟨e | sum, reached, seen⟩
    -- the run does not get to the row
    · obtain ⟨number, text, cause, rfl, hlt⟩ := sumRows_eq_error (congrArg Prod.fst hfront)
      refine ⟨fun _ => ?_, fun _ _ _ _ h => nomatch h⟩
      have hkept : number ≤ before.length := by omega
      simp only [Except.mapError, Model.Error.renumbered, if_pos hkept]
    · have hterm : row.term .silent (alternative - 1) reached { ctx with alternative } () = _ :=
        row.term_of_inert hrow
      refine ⟨fun hfilter => ?_, fun x reached' filter e h hfilter herror => ?_⟩
      · obtain ⟨applies, happlies⟩ := Row.applies_of_isOk (hfilter sum reached rfl)
        rw [happlies] at hterm
        simp only [sumRows, hterm, sumRows_succ (Nat.lt_add_of_pos_left Nat.one_pos : before.length < _)]
      · cases h
        rw [Row.applies_of_error hfilter herror] at hterm
        simp only [sumRows, hterm, Nat.add_comm 1]
  · refine ⟨fun _ => ?_, fun _ _ _ _ h => ?_⟩
    · simp only [trace_withRows_of_invalid hvalid]
      rfl
    · rw [trace_withRows_of_invalid hvalid] at h
      cases h

section Guarded

/-- A row with the weight `b` and a filter between two rows with the weight `a`. -/
def guarded (a b : Float) : Model.UtilitySpec where
  name := "mode"
  alternatives := ["walk"]
  rows := [{ text := "$alt", coefficients := [a] },
    { filter := some "$orig", text := "$dest", coefficients := [b] },
    { text := "$hh", coefficients := [a] }]

/-- What is bound once loop variables have been resolved in this order. -/
def loops (ls : List LoopVariable) : Variables Unit where
  bindings := (ls.map fun l => ⟨l.name, .loop l⟩).toArray

def loaded (l : LoopVariable) (i : Nat) : Expression :=
  ⟨l.name, .compiled ⟨Tree.program (.load ⟨l.name, i⟩), none⟩⟩

def guardedRow (b : Float) : Row := ⟨some (loaded .origin 1), loaded .destination 2, [b]⟩

def weighedRow (a : Float) (l : LoopVariable) (i : Nat) : Row := ⟨none, loaded l i, [a]⟩

def guardedUtility (a b : Float) : Utility where
  name := "mode"
  alternatives := ["walk"]
  rows := [weighedRow a .alternative 0, guardedRow b, weighedRow a .household 3]

abbrev guardedData : Variables Unit := loops [.alternative, .origin, .destination, .household]

set_option maxRecDepth 20000 in
theorem compile_guarded (a b : Float) : compile (guarded a b) {} =
    (.ok (guardedUtility a b), guardedData) := by
  have hfirst := compileRow_of_unfiltered (guarded a b) 1 { text := "$alt", coefficients := [a] } rfl
    (show Expression.compile "$alt" ({} : Variables Unit) =
      (.ok ⟨Tree.program (.load ⟨"$alt", 0⟩), none⟩, loops [.alternative]) by cbv) rfl
  have htrim : String.ofList (Text.trim "$orig".toList) = "$orig" := by cbv
  have htext : "$orig".isEmpty = false := by cbv
  have horigin : Expression.ofText? "$orig" (loops [.alternative]) =
      (.ok (loaded .origin 1), loops [.alternative, .origin]) := by cbv
  have hdestination : Expression.ofText? "$dest" (loops [.alternative, .origin]) =
      (.ok (loaded .destination 2), loops [.alternative, .origin, .destination]) := by cbv
  have hfilter : compileFilter (guarded a b) 2
      { filter := some "$orig", text := "$dest", coefficients := [b] } (loops [.alternative]) =
      (.ok (some (loaded .origin 1)), loops [.alternative, .origin]) := by
    simp only [compileFilter, Option.getD_some, htrim, htext, Bool.false_eq_true, if_false, horigin]
    rfl
  have hsecond : compileRow (guarded a b) 2
      { filter := some "$orig", text := "$dest", coefficients := [b] } (loops [.alternative]) =
      (.ok (guardedRow b), loops [.alternative, .origin, .destination]) := by
    simp only [compileRow, hfilter, hdestination]
    rfl
  have hthird := compileRow_of_unfiltered (guarded a b) 3 { text := "$hh", coefficients := [a] } rfl
    (show Expression.compile "$hh" (loops [.alternative, .origin, .destination]) =
      (.ok ⟨Tree.program (.load ⟨"$hh", 3⟩), none⟩,
        loops [.alternative, .origin, .destination, .household]) by cbv) rfl
  simp only [compile, guarded, compileRows, Nat.reduceAdd] at hfirst hsecond hthird ⊢
  simp only [hfirst, hsecond, hthird]
  rfl

theorem valueSeen_loaded (l : LoopVariable) (i : Nat) (v : Variables Unit) (ctx : Context Unit) :
    (loaded l i).valueSeen .silent v ctx () = (v.read i ctx, ()) :=
  evaluate_load ..

theorem isInert_guardedRow : (guardedRow 0.0).IsInert 0 := ⟨rfl, 0.0, rfl, by decide⟩

theorem term_weighedRow {a : Float} (ha : (a == 0.0) = false) (l : LoopVariable) (i : Nat)
    (v : Variables Unit) (ctx : Context Unit) : (weighedRow a l i).term .silent 0 v ctx () =
      match v.read i ctx with
      | .ok x => (.ok (some (a * x)), v, ())
      | .error e => (.error (loaded l i, e), v, ()) := by
  have hweighs : ((loaded l i).target?.isNone && [a][0]?.any (· == 0.0)) = false := by
    rw [List.getElem?_cons_zero, Option.any_some, ha, Bool.and_false]
  simp only [weighedRow, Row.term, Row.applies, hweighs, Bool.false_eq_true, if_false,
    Expression.solveSeen, valueSeen_loaded]
  cases v.read i ctx with
  | error e => rfl
  | ok x => rfl

/-- The first row alone. -/
theorem trace_first (ctx : Context Unit) :
    ((guardedUtility 1.0 0.0).withRows [weighedRow 1.0 .alternative 0]).trace guardedData ctx 1 =
      (.ok (0.0 + 1.0 * Float.ofNat 1), guardedData) := by
  rw [trace_withRows (u := guardedUtility 1.0 0.0) Nat.one_pos (Nat.le_refl 1)]
  rw [sumRows, term_weighedRow (by decide)]
  rfl

/-- The first and the last row. -/
theorem trace_outer (origin household : Option Nat) :
    ((guardedUtility 1.0 0.0).withRows
        ([weighedRow 1.0 .alternative 0] ++ [weighedRow 1.0 .household 3])).trace guardedData
        ({ origin, household } : Context Unit) 1 =
      (match household with
        | some n => .ok (0.0 + 1.0 * Float.ofNat 1 + 1.0 * Float.ofNat n)
        | none => .error (.solve "mode" "walk" 2 "$hh" (.missing "$hh" .loopValue)), guardedData) := by
  rw [trace_withRows (u := guardedUtility 1.0 0.0) Nat.one_pos (Nat.le_refl 1)]
  rw [List.singleton_append, sumRows, term_weighedRow (by decide)]
  change ((sumRows .silent _ _ _ 2 _ _ _ _).1, (sumRows .silent _ _ _ 2 _ _ _ _).2.1) = _
  rw [sumRows, term_weighedRow (by decide)]
  cases household with
  | none => rfl
  | some n => rfl

theorem value_missing : (loaded .origin 1).value guardedData
    ({ household := some 3, alternative := 1 } : Context Unit) =
    .error (.missing "$orig" .loopValue) := by
  rw [Expression.value, valueSeen_loaded]
  rfl

/-- With the row in the middle the last row is the third to fail, and without an origin the middle one
is the first. -/
theorem trace_insert_guarded : ∃ u v, compile (guarded 1.0 0.0) ({} : Variables Unit) = (.ok u, v) ∧
    u.trace v ({ origin := some 1 } : Context Unit) 1 =
      (.error (.solve "mode" "walk" 3 "$hh" (.missing "$hh" .loopValue)), v) ∧
    u.trace v ({ household := some 3 } : Context Unit) 1 =
      (.error (.solve "mode" "walk" 2 "$orig" (.missing "$orig" .loopValue)), v) := by
  have hinsert := @trace_insert _ Unit _ _ (guardedUtility 1.0 0.0) [weighedRow 1.0 .alternative 0]
    [weighedRow 1.0 .household 3] 1 isInert_guardedRow guardedData
  refine ⟨_, _, compile_guarded 1.0 0.0, ?_, ?_⟩
  · have hvalue : ∀ x reached, ((guardedUtility 1.0 0.0).withRows [weighedRow 1.0 .alternative 0]).trace
        guardedData ({ origin := some 1 } : Context Unit) 1 = (.ok x, reached) →
        ∀ filter ∈ (guardedRow 0.0).filter,
          (filter.value reached ({ origin := some 1, alternative := 1 } : Context Unit)).isOk = true := by
      rintro x reached h filter hfilter
      rw [trace_first] at h
      cases h
      cases hfilter
      rw [Expression.value, valueSeen_loaded]
      rfl
    refine ((hinsert { origin := some 1 }).1 hvalue).trans ?_
    rw [trace_outer (some 1) none]
    rfl
  · exact (hinsert { household := some 3 }).2 _ _ _ _ (trace_first _) rfl value_missing

theorem not_trace_insert_unreadable : ¬ ∀ (spec : Model.UtilitySpec) (u : Utility) (v : Variables Unit)
    (before after : List Row) (row : Row) (ctx : Context Unit) (alternative : Nat),
    compile spec {} = (.ok u, v) → u.rows = before ++ row :: after → row.IsInert (alternative - 1) →
      ∃ place, u.trace v ctx alternative =
        (((u.withRows (before ++ after)).trace v ctx alternative).1.mapError
            (Model.Error.renumbered place),
          ((u.withRows (before ++ after)).trace v ctx alternative).2) := by
  intro h
  obtain ⟨place, h⟩ := h _ _ _ [weighedRow 1.0 .alternative 0] [weighedRow 1.0 .household 3] _
    { household := some 3 } 1 (compile_guarded 1.0 0.0) rfl isInert_guardedRow
  have hterm : (guardedRow 0.0).term .silent 0 guardedData
      ({ household := some 3, alternative := 1 } : Context Unit) () = _ :=
    Row.term_of_inert isInert_guardedRow
  rw [Row.applies_of_error rfl value_missing] at hterm
  have hstopped : (guardedUtility 1.0 0.0).trace guardedData
      ({ household := some 3 } : Context Unit) 1 =
      (.error (.solve "mode" "walk" 2 "$orig" (.missing "$orig" .loopValue)), guardedData) := by
    refine (trace_withRows (u := guardedUtility 1.0 0.0) Nat.one_pos (Nat.le_refl 1) _).trans ?_
    rw [guardedUtility, sumRows, term_weighedRow (by decide)]
    change ((sumRows .silent _ _ _ 2 _ _ _ _).1, (sumRows .silent _ _ _ 2 _ _ _ _).2.1) = _
    rw [sumRows, hterm]
    rfl
  rw [hstopped, trace_outer none (some 3)] at h
  cases congrArg Prod.fst h

end Guarded

end Utility

end ChoiceModel
