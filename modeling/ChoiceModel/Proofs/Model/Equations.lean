import ChoiceModel.Proofs.Model.Prepared
import ChoiceModel.Proofs.Model.Run

/-! After its formulas have been solved, a model satisfies all of them at once: a formula writes to
its own scalar alone, and no formula from there on reads that scalar unless by its name. -/

namespace ChoiceModel.Model

open Expression Store

variable {v w : Variables Unit} {ctx : Context Unit}

def TargetsScalar (v : Variables Unit) (e : Expression) : Prop :=
  ∃ i b slot, e.target? = some i ∧ v.bindings[i]? = some b ∧ b.source = .scalar slot

/-- The formula, the value in the results and the scalar agree. -/
def Holds (v : Variables Unit) (ctx : Context Unit) (values : List (String × Float))
    (f : String × Expression) : Prop :=
  ∃ x, f.2.value v ctx = .ok x ∧ values.lookup f.1 = some x ∧ v.scalars.get? f.1 = some x

section Solve

variable {names : String → List String} {f : String × Expression}

theorem TargetsScalar.of_sameNames {e : Expression} (h : TargetsScalar v e) (hvw : v.SameNames w) :
    TargetsScalar w e := by
  obtain ⟨i, b, slot, htarget, hb, hslot⟩ := h
  refine ⟨i, b, slot, htarget, ?_, hslot⟩
  rw [hvw.bindings]
  exact hb

theorem Formulated.value_eq {written : List String} (h : Formulated v names f) (hv : v.Coherent)
    (hvw : Variables.ChangesOnly written v w) (hread : ∀ n ∈ written, n ∉ names f.1) :
    f.2.value w ctx = f.2.value v ctx := by
  obtain ⟨c, hstate, hassigns⟩ := h
  obtain ⟨t, ht⟩ := hassigns.tree
  have hloads : ∀ i ∈ t.program.loads, w.read i ctx = v.read i ctx := by
    intro i hi
    rw [← ht] at hi
    obtain ⟨b, hb, hname⟩ := hassigns.loads i hi
    exact hvw.read hv hb (fun hn => hread b.name hn hname) ctx
  have hcongr : evaluate .silent t.program w ctx () = evaluate .silent t.program v ctx () :=
    evaluate_congr hloads fun i _ y => hvw.readIndexed i y ctx
  unfold Expression.value valueSeen
  rw [hstate]
  simp only [ht, hcongr]

/-- Solving a formula writes its value to its scalar and nothing else. -/
theorem solveSeen_eq_ok {x : Float} (hv : v.Coherent) (hf : Formulated v names f)
    (htarget : TargetsScalar v f.2) (h : f.2.solveSeen .silent v ctx () = (.ok x, w, ())) :
    f.2.value v ctx = .ok x ∧ Variables.ChangesOnly [f.1] v w ∧ w.scalars.get? f.1 = some x := by
  obtain ⟨c, hstate, hassigns⟩ := hf
  obtain ⟨i, b, slot, hi, hb, hslot⟩ := htarget
  obtain ⟨i', hi', b', hb', hname⟩ := hassigns.target
  -- the scalar that is written is the one of the formula's name
  have htarget : f.2.target? = some i' := by
    rw [target?, compiled?, hstate]
    exact hi'
  cases htarget.symm.trans hi
  cases hb.symm.trans hb'
  have hname : b.name = f.1 := List.mem_singleton.mp hname
  have hindex : v.scalars.indexOf? f.1 = some slot := hname ▸ hv i b slot hb hslot
  unfold solveSeen at h
  split at h
  · cases h
  · rename_i x' seen hvalue
    rw [hi] at h
    simp only at h
    split at h
    · rename_i w' hwrite
      cases h
      obtain ⟨-, rfl⟩ := Variables.write_scalar hb hslot hwrite
      refine ⟨?_, .setAt hindex x, Scalars.get?_setAt_self hindex x⟩
      rw [Expression.value, hvalue]
    · cases h

theorem solveFormulas_eq_ok {formulas : List (String × Expression)}
    {values values' : List (String × Float)} (hv : v.Coherent)
    (hformulas : ∀ f ∈ formulas, Formulated v names f ∧ TargetsScalar v f.2)
    (horder : ReadsInOrder names (formulas.map Prod.fst))
    (h : Prepared.solveFormulas .silent ctx formulas values v () = (.ok values', w, ())) :
    Variables.ChangesOnly (formulas.map Prod.fst) v w ∧
      (∀ n ∉ formulas.map Prod.fst, values'.lookup n = values.lookup n) ∧
      ∀ f ∈ formulas, Holds w ctx values' f := by
  induction formulas generalizing values v with
  | nil =>
    cases h
    exact ⟨.refl _ _, fun _ _ => rfl, fun _ hf => nomatch hf⟩
  | cons f formulas ih =>
    obtain ⟨name, e⟩ := f
    obtain ⟨hfresh, hreads, horder⟩ := horder
    obtain ⟨hformulated, htarget⟩ := hformulas (name, e) List.mem_cons_self
    rw [Prepared.solveFormulas] at h
    rcases hsolved : e.solveSeen .silent v ctx () with ⟨r, v₁, u⟩
    rw [hsolved] at h
    cases r with
    | error cause => cases h
    | ok x =>
      obtain ⟨hvalue, hchanged, hscalar⟩ := solveSeen_eq_ok hv hformulated htarget hsolved
      have hsame := hchanged.sameNames
      have hrest : ∀ f ∈ formulas, Formulated v₁ names f ∧ TargetsScalar v₁ f.2 := by
        intro f hf
        obtain ⟨hf₁, hf₂⟩ := hformulas f (List.mem_cons_of_mem _ hf)
        exact ⟨hf₁.mono hsame.toExtends, hf₂.of_sameNames hsame⟩
      obtain ⟨hchanged', hlookup, hholds⟩ := ih (hsame.coherent hv) hrest horder h
      have hall := hchanged.trans hchanged'
      refine ⟨hall, fun n hn => ?_, fun f hf => ?_⟩
      · have hne : n ≠ name := by
          rintro rfl
          exact hn List.mem_cons_self
        rw [hlookup n fun hmem => hn (List.mem_cons_of_mem _ hmem)]
        exact lookup_insertKey_of_ne hne x values
      · rcases List.mem_cons.mp hf with rfl | hf
        -- nothing that the formula reads has been written since, nor has its own scalar
        · refine ⟨x, ?_, ?_, ?_⟩
          · rw [hformulated.value_eq hv hall hreads]
            exact hvalue
          · rw [hlookup name hfresh]
            exact lookup_insertKey_self name x values
          · rw [hchanged'.value name hfresh]
            exact hscalar
        · exact hholds f hf

end Solve

theorem run_formulas {p : Prepared} {values : List (String × Float)} {results : Results}
    (hphase : Prepared.solveFormulas .silent ctx p.formulas [] p.data () = (.ok values, v, ()))
    (hrun : (p.run ctx).1 = .ok results) : results.formulas = values := by
  rw [Prepared.run, Prepared.runSeen, hphase] at hrun
  simp only at hrun
  rcases hutilities : Prepared.solveUtilities .silent ctx p.utilities v () with ⟨r, v', u⟩
  rw [hutilities] at hrun
  cases r with
  | error e => cases hrun
  | ok utilities =>
    cases hrun
    rfl

/-- The formulas of a model hold all at once when the last of them has been solved, also after any
earlier runs. -/
theorem Checked.equations_hold {m : Model} {p : Prepared} {values : List (String × Float)}
    {data : Variables Unit} (history : List (Context Unit)) (hm : m.Checked)
    (htrim : ∀ f ∈ m.formulas, Text.trim f.1.toList = f.1.toList) (hprepare : m.prepare = .ok p)
    (htarget : ∀ f ∈ p.formulas, TargetsScalar p.data f.2)
    (hphase : Prepared.solveFormulas .silent ctx (p.after history).formulas []
      (p.after history).data () = (.ok values, data, ())) :
    (∀ f ∈ m.formulas, ∃ e, (f.1, e) ∈ p.formulas ∧ e.text = f.1 ++ " = " ++ f.2) ∧
      (∀ f ∈ p.formulas, Holds data ctx values f) ∧
      ∀ results, ((p.after history).run ctx).1 = .ok results → results.formulas = values := by
  obtain ⟨hcoherent, hformulated, hinorder, htexts⟩ := prepared_formulas hm htrim hprepare
  have hsame := p.after_sameNames history
  refine ⟨htexts, ?_, fun results hrun => run_formulas hphase hrun⟩
  rw [p.after_formulas] at hphase
  have hformulas : ∀ f ∈ p.formulas, Formulated (p.after history).data m.textNames f ∧
      TargetsScalar (p.after history).data f.2 := fun f hf =>
    ⟨(hformulated f hf).mono hsame.toExtends, (htarget f hf).of_sameNames hsame⟩
  exact (solveFormulas_eq_ok (hsame.coherent hcoherent) hformulas hinorder hphase).2.2

/-- The formulas of a model that was read from a file hold all at once, also after any earlier runs. -/
theorem formulas_hold {text : String} {m : Model} {p : Prepared} {values : List (String × Float)}
    {data : Variables Unit} (history : List (Context Unit)) (hparse : parse text = .ok m)
    (htrim : ∀ f ∈ m.formulas, Text.trim f.1.toList = f.1.toList) (hprepare : m.prepare = .ok p)
    (htarget : ∀ f ∈ p.formulas, TargetsScalar p.data f.2)
    (hphase : Prepared.solveFormulas .silent ctx (p.after history).formulas []
      (p.after history).data () = (.ok values, data, ())) :
    (∀ f ∈ m.formulas, ∃ e, (f.1, e) ∈ p.formulas ∧ e.text = f.1 ++ " = " ++ f.2) ∧
      (∀ f ∈ p.formulas, Holds data ctx values f) ∧
      ∀ results, ((p.after history).run ctx).1 = .ok results → results.formulas = values :=
  (Checked.of_parse hparse).equations_hold history htrim hprepare htarget hphase

section Doubling

open Yaml (tokens? document? read?)

/-- A formula for the origin of a trip and one that doubles it. -/
def doubling : Model := { formulas := [("a", "$orig"), ("b", "a + a")] }

/-- The variables of the model once the first `n` formulas have been compiled. -/
def doublingData (n : Nat) (x y : Float) : Variables Unit where
  scalars := ⟨(#[("a", x), ("b", y)] : Array (String × Float)).take n⟩
  bindings := #[⟨"$orig", .loop .origin⟩, ⟨"a", .scalar 0⟩, ⟨"b", .scalar 1⟩].take (n + 1)

def doublingFormulas : List (String × Expression) :=
  [("a", ⟨"a = $orig", .compiled ⟨Tree.program (.load ⟨"$orig", 0⟩), some 1⟩⟩),
    ("b", ⟨"b = a + a",
      .compiled ⟨Tree.program (.operator .add (.load ⟨"a", 1⟩) (.load ⟨"a", 1⟩)), some 2⟩⟩)]

set_option maxRecDepth 20000 in
theorem parse_doubling : parse "formulas: \x7ba: '$orig', b: 'a + a'\x7d" = .ok doubling := by
  have htokens : tokens? "formulas: \x7ba: '$orig', b: 'a + a'\x7d" = some [.blockMapping, .key,
      .scalar .plain "formulas", .value, .openMapping, .key, .scalar .plain "a", .value,
      .scalar .quoted "$orig", .flowEntry, .key, .scalar .plain "b", .value,
      .scalar .quoted "a + a", .closeMapping, .blockEnd] := by
    cbv
  have hdocument : document? "formulas: \x7ba: '$orig', b: 'a + a'\x7d" =
      some (.mapping {} [(.scalar {} .plain "formulas", .mapping {} [
        (.scalar {} .plain "a", .scalar {} .quoted "$orig"),
        (.scalar {} .plain "b", .scalar {} .quoted "a + a")])]) := by
    rw [document?, htokens]
    cbv
  have hread : read? Document.model "formulas: \x7ba: '$orig', b: 'a + a'\x7d" = some doubling := by
    rw [read?, hdocument]
    rfl
  rw [parse, hread]
  cbv

theorem compileFormulas_doubling :
    doubling.compileFormulas ["a", "b"] {} = (.ok doublingFormulas, doublingData 2 0.0 0.0) := by
  have hnames := (Checked.of_parse parse_doubling).names
  have hfirst : ∀ x y : Float, compile ("a" ++ " = " ++ "$orig") {} =
      (.ok ⟨Tree.program (.load ⟨"$orig", 0⟩), some 1⟩, doublingData 1 0.0 y) := by
    intro x y
    have hassign : Variables.resolveAssign "a" (doublingData 0 x y) =
        (some 1, doublingData 1 0.0 y) :=
      Variables.resolveAssign_of_free (by cbv) (by cbv) (by cbv) (by cbv)
    exact (compile_assignment_eq_ok_iff (hnames ("a", "$orig") List.mem_cons_self)).mpr
      ⟨doublingData 0 x y, 1, by cbv, rfl, hassign, rfl⟩
  have hsecond : ∀ x y, compile ("b" ++ " = " ++ "a + a") (doublingData 1 x y) =
      (.ok ⟨Tree.program (.operator .add (.load ⟨"a", 1⟩) (.load ⟨"a", 1⟩)), some 2⟩,
        doublingData 2 x 0.0) := by
    intro x y
    have hassign : Variables.resolveAssign "b" (doublingData 1 x y) =
        (some 2, doublingData 2 x 0.0) :=
      Variables.resolveAssign_of_free (by cbv) (by cbv) (by cbv) (by cbv)
    exact (compile_assignment_eq_ok_iff (hnames ("b", "a + a") (.tail _ List.mem_cons_self))).mpr
      ⟨doublingData 1 x y, 2, by cbv, rfl, hassign, rfl⟩
  have ha : doubling.compileFormula "a" {} = (.ok _, doublingData 1 0.0 0.0) :=
    compileFormula_eq_ok_iff.mpr ⟨_, hfirst 0.0 0.0, rfl⟩
  have hb : doubling.compileFormula "b" (doublingData 1 0.0 0.0) = (.ok _, doublingData 2 0.0 0.0) :=
    compileFormula_eq_ok_iff.mpr ⟨_, hsecond 0.0 0.0, rfl⟩
  simp only [compileFormulas, ha, hb]
  rfl

theorem prepare_doubling :
    doubling.prepare = .ok ⟨doublingData 2 0.0 0.0, doublingFormulas, []⟩ := by
  have horder : doubling.formulaOrder = .ok ["a", "b"] := by
    cbv
  exact prepare_eq_ok_iff.mpr ⟨{}, doublingData 2 0.0 0.0, ["a", "b"], rfl, horder,
    compileFormulas_doubling, rfl⟩

theorem solveFormulas_doubling (n : Nat) (x y : Float) :
    Prepared.solveFormulas .silent { origin := some n } doublingFormulas [] (doublingData 2 x y) () =
      (.ok [("a", .ofNat n), ("b", .ofNat n + .ofNat n)],
        doublingData 2 (.ofNat n) (.ofNat n + .ofNat n), ()) := by
  have ha : evaluate .silent (Tree.program (.load ⟨"$orig", 0⟩)) (doublingData 2 x y)
      ({ origin := some n } : Context Unit) () = (.ok (.ofNat n), ()) := by
    refine finished_injective ?_
    rw [← forwardPass_eq_evaluate]
    rfl
  have hb : ∀ z, evaluate .silent
      (Tree.program (.operator .add (.load ⟨"a", 1⟩) (.load ⟨"a", 1⟩))) (doublingData 2 z y)
      ({ origin := some n } : Context Unit) () = (.ok (z + z), ()) := by
    intro z
    refine finished_injective ?_
    rw [← forwardPass_eq_evaluate]
    rfl
  have hfirst : ∀ text, (⟨text, .compiled ⟨Tree.program (.load ⟨"$orig", 0⟩), some 1⟩⟩ :
      Expression).solveSeen .silent (doublingData 2 x y) ({ origin := some n } : Context Unit) () =
      (.ok (.ofNat n), doublingData 2 (.ofNat n) y, ()) := by
    intro text
    simp only [solveSeen, valueSeen, ha]
    rfl
  have hsecond : ∀ text z, (⟨text, .compiled ⟨Tree.program (.operator .add (.load ⟨"a", 1⟩)
      (.load ⟨"a", 1⟩)), some 2⟩⟩ : Expression).solveSeen .silent (doublingData 2 z y)
      ({ origin := some n } : Context Unit) () = (.ok (z + z), doublingData 2 z (z + z), ()) := by
    intro text z
    simp only [solveSeen, valueSeen, hb]
    rfl
  simp only [doublingFormulas, Prepared.solveFormulas, hfirst, hsecond]
  rfl

theorem trim_doubling : ∀ f ∈ doubling.formulas, Text.trim f.1.toList = f.1.toList := by
  intro f hf
  rcases List.mem_cons.mp hf with rfl | hf
  · cbv
  · cases List.mem_singleton.mp hf
    cbv

theorem targetsScalar_doubling (x y : Float) :
    ∀ f ∈ doublingFormulas, TargetsScalar (doublingData 2 x y) f.2 := by
  intro f hf
  rcases List.mem_cons.mp hf with rfl | hf
  · exact ⟨1, ⟨"a", .scalar 0⟩, 0, rfl, rfl, rfl⟩
  · cases List.mem_singleton.mp hf
    exact ⟨2, ⟨"b", .scalar 1⟩, 1, rfl, rfl, rfl⟩

/-- The equations of two formulas, of which the second reads the first. -/
theorem formulas_hold_doubling : ∃ m p values data,
    parse "formulas: \x7ba: '$orig', b: 'a + a'\x7d" = .ok m ∧ m.prepare = .ok p ∧
      p.formulas.map Prod.fst = ["a", "b"] ∧
      Prepared.solveFormulas .silent { origin := some 1 } (p.after []).formulas [] (p.after []).data () =
        (.ok values, data, ()) ∧
      ∀ f ∈ p.formulas, Holds data { origin := some 1 } values f := by
  have hphase := solveFormulas_doubling 1 0.0 0.0
  exact ⟨_, _, _, _, parse_doubling, prepare_doubling, rfl, hphase,
    (formulas_hold [] parse_doubling trim_doubling prepare_doubling (targetsScalar_doubling 0.0 0.0)
      hphase).2.1⟩

end Doubling

end ChoiceModel.Model
