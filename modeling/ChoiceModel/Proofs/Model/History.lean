import ChoiceModel.Proofs.Alternatives
import ChoiceModel.Proofs.Model.Equations

/-! Runs of a model one after the other. What a run leaves in the scalars of formulas is overwritten in
the next one before anything reads it, so no run depends on those before it. -/

namespace ChoiceModel.Model

open Expression Store

variable {v₀ v w : Variables Unit} {stale : Nat → Prop}

/-- One of the formulas assigns the scalar, and none up to that one reads it. -/
def SolvedFirst (v : Variables Unit) (slot : Nat) : List (String × Expression) → Prop
  | [] => False
  | f :: formulas => slot ∉ f.2.scalarsRead v ∧
      (f.2.scalarAssigned? v = some slot ∨ SolvedFirst v slot formulas)

section Formulas

variable {formulas : List (String × Expression)}
  (hformulas : ∀ f ∈ formulas, f.2.IsSound v₀ ∧ f.2.AssignsScalars v₀)

include hformulas

theorem solveFormulas_agreesOff
    (hstale : ∀ f ∈ formulas, ∀ slot, f.2.scalarAssigned? v₀ = some slot → stale slot)
    (hkept : v₀.Keeps v) (ctx : Context Unit) (values : List (String × Float)) :
    v.AgreesOff stale (Prepared.solveFormulas .silent ctx formulas values v ()).2.1 := by
  induction formulas generalizing values v with
  | nil => exact .refl stale v
  | cons f formulas ih =>
    obtain ⟨name, e⟩ := f
    obtain ⟨-, hscalars⟩ := hformulas (name, e) List.mem_cons_self
    have hfirst := (solveSeen_agreesOff hscalars hkept ctx).mono (hstale (name, e) List.mem_cons_self)
    rw [Prepared.solveFormulas]
    rcases hsolved : e.solveSeen .silent v ctx () with ⟨r, v₁, seen⟩
    rw [hsolved] at hfirst
    cases r with
    | error cause => exact hfirst
    | ok x =>
      exact hfirst.trans (ih (fun f hf => hformulas f (List.mem_cons_of_mem _ hf))
        (fun f hf => hstale f (List.mem_cons_of_mem _ hf)) (hfirst.keeps hkept) _)

/-- Two runs of formulas that solve every stale scalar before they read it: they give the same, and
leave nothing stale. -/
theorem solveFormulas_agree (hkept : v₀.Keeps v) (hagree : v.AgreesOff stale w)
    (hfirst : ∀ slot, stale slot → SolvedFirst v₀ slot formulas) (ctx : Context Unit)
    (values : List (String × Float)) :
    (Prepared.solveFormulas .silent ctx formulas values w ()).1 =
        (Prepared.solveFormulas .silent ctx formulas values v ()).1 ∧
      ∀ values', (Prepared.solveFormulas .silent ctx formulas values v ()).1 = .ok values' →
        (Prepared.solveFormulas .silent ctx formulas values v ()).2.1.AgreesOff (fun _ => False)
          (Prepared.solveFormulas .silent ctx formulas values w ()).2.1 := by
  induction formulas generalizing values v w stale with
  | nil => exact ⟨rfl, fun _ _ => hagree.mono hfirst⟩
  | cons f formulas ih =>
    obtain ⟨name, e⟩ := f
    obtain ⟨hsound, hscalars⟩ := hformulas (name, e) List.mem_cons_self
    have hunread : ∀ slot ∈ e.scalarsRead v₀, ¬ stale slot :=
      fun slot hread hs => (hfirst slot hs).1 hread
    have hrest : ∀ slot, stale slot ∧ e.scalarAssigned? v₀ ≠ some slot →
        SolvedFirst v₀ slot formulas :=
      fun slot hs => (hfirst slot hs.1).2.resolve_left hs.2
    have hkept₁ := (solveSeen_agreesOff hscalars hkept ctx).keeps hkept
    obtain ⟨hvalue, hagree₁⟩ := solveSeen_agree hsound hscalars hkept hagree hunread ctx
    rw [Prepared.solveFormulas, Prepared.solveFormulas]
    rcases hv : e.solveSeen .silent v ctx () with ⟨r, v₁, seen⟩
    rcases hw : e.solveSeen .silent w ctx () with ⟨r', w₁, seen'⟩
    rw [hv, hw] at hvalue hagree₁
    rw [hv] at hkept₁
    obtain rfl : r' = r := hvalue
    cases r' with
    | error cause =>
      refine ⟨rfl, fun values' h => ?_⟩
      cases h
    | ok x =>
      exact ih (fun f hf => hformulas f (List.mem_cons_of_mem _ hf)) hkept₁ (hagree₁ x rfl) hrest _

end Formulas

section Utilities

theorem solveSeen_agreesOff_nothing {u : Utility} (hu : u.Separate v₀ ∧ u.scalarsAssigned v₀ = [])
    (hkept : v₀.Keeps v) (ctx : Context Unit) :
    v.AgreesOff (fun _ => False) (u.solveSeen .silent v ctx ()).2.1 := by
  refine (hu.1.solve_leaves hkept ctx).mono fun slot hslot => ?_
  rw [hu.2] at hslot
  cases hslot

variable {utilities : List Utility}
  (hutilities : ∀ u ∈ utilities, u.Separate v₀ ∧ u.scalarsAssigned v₀ = [])

include hutilities

theorem solveUtilities_agreesOff (hkept : v₀.Keeps v) (ctx : Context Unit) :
    v.AgreesOff (fun _ => False) (Prepared.solveUtilities .silent ctx utilities v ()).2.1 := by
  induction utilities generalizing v with
  | nil => exact .refl _ v
  | cons u utilities ih =>
    have hfirst := solveSeen_agreesOff_nothing (hutilities u List.mem_cons_self) hkept ctx
    rw [Prepared.solveUtilities]
    rcases hsolved : u.solveSeen .silent v ctx () with ⟨r, v₁, seen⟩
    rw [hsolved] at hfirst
    cases r with
    | error e => exact hfirst
    | ok xs =>
      have hrest := hfirst.trans (ih (fun u hu => hutilities u (List.mem_cons_of_mem _ hu))
        (hfirst.keeps hkept))
      simp only
      rcases hothers : Prepared.solveUtilities .silent ctx utilities v₁ () with ⟨r', v₂, seen'⟩
      rw [hothers] at hrest
      cases r' with
      | error e => exact hrest
      | ok results => exact hrest

theorem solveUtilities_agree (hkept : v₀.Keeps v) (hagree : v.AgreesOff (fun _ => False) w)
    (ctx : Context Unit) :
    (Prepared.solveUtilities .silent ctx utilities w ()).1 =
      (Prepared.solveUtilities .silent ctx utilities v ()).1 := by
  induction utilities generalizing v w with
  | nil => rfl
  | cons u utilities ih =>
    have hu := hutilities u List.mem_cons_self
    have hagree' : v.AgreesOff (· ∈ u.scalarsAssigned v₀) w := hagree.mono fun _ h => h.elim
    have hvalue : (u.solveSeen .silent w ctx ()).1 = (u.solveSeen .silent v ctx ()).1 :=
      (hu.1.solve hkept hagree' ctx).trans (hu.1.solve hkept (.refl _ v) ctx).symm
    have hv₁ := solveSeen_agreesOff_nothing hu hkept ctx
    have hw₁ := solveSeen_agreesOff_nothing hu (hagree.keeps hkept) ctx
    have hagree₁ := (hv₁.symm.trans hagree).trans hw₁
    rw [Prepared.solveUtilities, Prepared.solveUtilities]
    rcases hv : u.solveSeen .silent v ctx () with ⟨r, v₁, seen⟩
    rcases hw : u.solveSeen .silent w ctx () with ⟨r', w₁, seen'⟩
    rw [hv, hw] at hvalue hagree₁
    rw [hv] at hv₁
    obtain rfl : r' = r := hvalue
    cases r' with
    | error e => rfl
    | ok xs =>
      have hrest := ih (fun u hu => hutilities u (List.mem_cons_of_mem _ hu)) (hv₁.keeps hkept) hagree₁
      simp only
      rcases hothers : Prepared.solveUtilities .silent ctx utilities v₁ () with ⟨q, v₂, seen₁⟩
      rcases hothers' : Prepared.solveUtilities .silent ctx utilities w₁ () with ⟨q', w₂, seen₂⟩
      rw [hothers, hothers'] at hrest
      obtain rfl : q' = q := hrest
      cases q' with
      | error e => rfl
      | ok results => rfl

end Utilities

namespace Prepared

variable {p : Prepared}

/-- The scalars that the formulas assign, by their slots. -/
def scalarsSolved (v : Variables Unit) (p : Prepared) : List Nat :=
  p.formulas.filterMap fun f => f.2.scalarAssigned? v

/-- What makes every run start afresh: the formulas assign nothing but scalars, each of them before it
is read, and the utilities assign nothing. -/
structure Renewing (v : Variables Unit) (p : Prepared) : Prop where
  formulas : ∀ f ∈ p.formulas, f.2.IsSound v ∧ f.2.AssignsScalars v
  first : ∀ slot ∈ p.scalarsSolved v, SolvedFirst v slot p.formulas
  utilities : ∀ u ∈ p.utilities, u.Separate v ∧ u.scalarsAssigned v = []

variable (hp : p.Renewing v₀)

include hp

theorem Renewing.run_leaves (hkept : v₀.Keeps p.data) (ctx : Context Unit) :
    p.data.AgreesOff (· ∈ p.scalarsSolved v₀) (p.run ctx).2.data := by
  have hformulas := solveFormulas_agreesOff hp.formulas
    (fun f hf _ hslot => List.mem_filterMap.mpr ⟨f, hf, hslot⟩) hkept ctx []
  rw [run, runSeen]
  rcases hsolved : solveFormulas .silent ctx p.formulas [] p.data () with ⟨r, v, seen⟩
  rw [hsolved] at hformulas
  cases r with
  | error e => exact hformulas
  | ok values =>
    have hutilities := hformulas.trans
      ((solveUtilities_agreesOff hp.utilities (hformulas.keeps hkept) ctx).mono fun _ h => h.elim)
    simp only
    rcases hothers : solveUtilities .silent ctx p.utilities v () with ⟨r', v', seen'⟩
    rw [hothers] at hutilities
    cases r' with
    | error e => exact hutilities
    | ok results => exact hutilities

/-- A run gives the same whatever the scalars of the formulas hold. -/
theorem Renewing.run (hkept : v₀.Keeps p.data)
    (hagree : p.data.AgreesOff (· ∈ p.scalarsSolved v₀) w) (ctx : Context Unit) :
    (Prepared.run { p with data := w } ctx).1 = (p.run ctx).1 := by
  have hleft := solveFormulas_agreesOff hp.formulas
    (fun f hf _ hslot => List.mem_filterMap.mpr ⟨f, hf, hslot⟩) hkept ctx []
  obtain ⟨hvalues, hdata⟩ := solveFormulas_agree hp.formulas hkept hagree hp.first ctx []
  rw [Prepared.run, Prepared.run, runSeen, runSeen]
  rcases hv : solveFormulas .silent ctx p.formulas [] p.data () with ⟨r, v, seen⟩
  rcases hw : solveFormulas .silent ctx p.formulas [] w () with ⟨r', w', seen'⟩
  rw [hv, hw] at hvalues hdata
  rw [hv] at hleft
  obtain rfl : r' = r := hvalues
  simp only
  cases r' with
  | error e => rfl
  | ok values =>
    have hutilities := solveUtilities_agree hp.utilities (hleft.keeps hkept)
      (hdata values rfl) ctx
    simp only
    rcases hothers : solveUtilities .silent ctx p.utilities v () with ⟨q, v₁, seen₁⟩
    rcases hothers' : solveUtilities .silent ctx p.utilities w' () with ⟨q', w₁, seen₂⟩
    rw [hothers, hothers'] at hutilities
    obtain rfl : q' = q := hutilities
    cases q' with
    | error e => rfl
    | ok results => rfl

theorem Renewing.after_leaves (hkept : v₀.Keeps p.data) (history : List (Context Unit)) :
    p.data.AgreesOff (· ∈ p.scalarsSolved v₀) (p.after history).data := by
  induction history generalizing p with
  | nil => exact .refl _ p.data
  | cons ctx history ih =>
    have hfirst := hp.run_leaves hkept ctx
    have hdata : (p.run ctx).2 = { p with data := (p.run ctx).2.data } := runSeen_data .silent p ctx ()
    have hp₁ : Renewing v₀ { p with data := (p.run ctx).2.data } :=
      ⟨hp.formulas, hp.first, hp.utilities⟩
    rw [after, List.foldl_cons, hdata]
    exact hfirst.trans (ih hp₁ (hfirst.keeps hkept))

end Prepared

section Prepare

variable {text : String} {m : Model} {p : Prepared}

theorem TargetsScalar.assignsScalars {e : Expression} (h : TargetsScalar v e) :
    e.AssignsScalars v := by
  obtain ⟨i, b, slot, hi, hb, hslot⟩ := h
  intro j hj
  cases hi.symm.trans hj
  rw [Variables.scalarAt?_of_binding hb hslot]
  rfl

/-- A formula reads a scalar only if it mentions its name, so not one that itself or a later formula
assigns. -/
theorem solvedFirst_of_readsInOrder {names : String → List String}
    {formulas : List (String × Expression)} (hv : v.Coherent)
    (hformulas : ∀ f ∈ formulas, Formulated v names f)
    (horder : ReadsInOrder names (formulas.map Prod.fst)) {g : String × Expression}
    (hg : g ∈ formulas) {slot : Nat} (hslot : g.2.scalarAssigned? v = some slot) :
    SolvedFirst v slot formulas := by
  have hindex : v.scalars.indexOf? g.1 = some slot := by
    obtain ⟨c, hstate, hassigns⟩ := hformulas g hg
    obtain ⟨i, hi, b, hb, hname⟩ := hassigns.target
    have htarget : g.2.target? = some i := by
      rw [target?, compiled?, hstate]
      exact hi
    rw [scalarAssigned?_of_target htarget] at hslot
    obtain ⟨b', hb', hsource⟩ := Variables.scalarAt?_eq_some hslot
    cases hb.symm.trans hb'
    rw [← List.mem_singleton.mp hname]
    exact hv i b slot hb hsource
  induction formulas with
  | nil => cases hg
  | cons f formulas ih =>
    obtain ⟨-, hreads, horder⟩ := horder
    refine ⟨fun hread => ?_, ?_⟩
    · obtain ⟨c, hstate, hassigns⟩ := hformulas f List.mem_cons_self
      rw [scalarsRead, program?, compiled?, hstate] at hread
      obtain ⟨i, hi, hread⟩ := List.mem_filterMap.mp hread
      obtain ⟨b, hb, hsource⟩ := Variables.scalarAt?_eq_some hread
      obtain ⟨b', hb', hname⟩ := hassigns.loads i hi
      cases hb.symm.trans hb'
      have heq : b.name = g.1 := Scalars.eq_of_indexOf? (hv i b slot hb hsource) hindex
      exact hreads g.1 (List.mem_map_of_mem (f := Prod.fst) hg) (heq ▸ hname)
    · rcases List.mem_cons.mp hg with rfl | hg
      · exact .inl hslot
      · exact .inr (ih (fun f hf => hformulas f (List.mem_cons_of_mem _ hf)) horder hg)

theorem compileUtilities_isSound {specs : List UtilitySpec} {utilities : List Utility}
    (h : compileUtilities specs v = (.ok utilities, w)) : ∀ u ∈ utilities, ∀ row ∈ u.rows,
      (∀ e ∈ row.filter, e.IsSound w) ∧ row.expression.IsSound w := by
  induction specs generalizing v utilities with
  | nil =>
    cases h
    exact fun _ hu => nomatch hu
  | cons spec specs ih =>
    rw [compileUtilities] at h
    split at h
    · cases h
    · rename_i first v₁ hfirst
      split at h
      · cases h
      · rename_i rest v₂ hrest
        cases h
        have hgrows := compileUtilities_resolving resolving_grows specs v₁
        rw [hrest] at hgrows
        intro u hu row hrow
        rcases List.mem_cons.mp hu with rfl | hu
        · obtain ⟨hfilter, hexpression⟩ := Utility.compile_isSound hfirst row hrow
          exact ⟨fun e he => (hfilter e he).mono hgrows, hexpression.mono hgrows⟩
        · exact ih hrest u hu row hrow

theorem prepared_renewing (hm : m.Checked)
    (htrim : ∀ f ∈ m.formulas, Text.trim f.1.toList = f.1.toList) (hprepare : m.prepare = .ok p)
    (htarget : ∀ f ∈ p.formulas, TargetsScalar p.data f.2)
    (hidle : ∀ u ∈ p.utilities, ∀ row ∈ u.rows, row.expression.target? = none) :
    p.Renewing p.data := by
  obtain ⟨hcoherent, hformulated, hinorder, -⟩ := prepared_formulas hm htrim hprepare
  obtain ⟨hsound, -, -⟩ := prepared_forall resolving_grows (P := fun w f => f.2.IsSound w)
    (fun _ _ _ hvw hf => hf.mono hvw) (fun f _ _ _ v e w hcompiled => by
      obtain ⟨c, hcompile, rfl⟩ := compileFormula_eq_ok_iff.mp hcompiled
      exact ⟨c, rfl, compile_sound hcompile⟩) hm hprepare
  obtain ⟨_, _, _, -, -, -, hutilities⟩ := prepare_eq_ok_iff.mp hprepare
  refine ⟨fun f hf => ⟨hsound f hf, (htarget f hf).assignsScalars⟩, fun slot hslot => ?_,
    fun u hu => ?_⟩
  · obtain ⟨g, hg, hslot⟩ := List.mem_filterMap.mp hslot
    exact solvedFirst_of_readsInOrder hcoherent hformulated hinorder hg hslot
  · have hnone : u.scalarsAssigned p.data = [] := by
      refine List.filterMap_eq_nil_iff.mpr fun row hrow => ?_
      rw [scalarAssigned?, hidle u hu row hrow]
      rfl
    refine ⟨⟨fun row hrow => ?_, fun slot hslot => ?_⟩, hnone⟩
    · obtain ⟨hfilter, hexpression⟩ := compileUtilities_isSound hutilities u hu row hrow
      refine ⟨hfilter, hexpression, fun i hi => ?_⟩
      rw [hidle u hu row hrow] at hi
      cases hi
    · rw [hnone] at hslot
      cases hslot

/-- A run of a model whose formulas assign scalars and whose utilities assign nothing gives the same
after any earlier runs, of which some may have ended with an error, as it gives at first. -/
theorem Checked.run_after_eq (history : List (Context Unit)) (ctx : Context Unit) (hm : m.Checked)
    (htrim : ∀ f ∈ m.formulas, Text.trim f.1.toList = f.1.toList) (hprepare : m.prepare = .ok p)
    (htarget : ∀ f ∈ p.formulas, TargetsScalar p.data f.2)
    (hidle : ∀ u ∈ p.utilities, ∀ row ∈ u.rows, row.expression.target? = none) :
    ((p.after history).run ctx).1 = (p.run ctx).1 := by
  have hp := prepared_renewing hm htrim hprepare htarget hidle
  have hkept : p.data.Keeps p.data := fun _ _ h => h
  rw [p.after_data history]
  exact hp.run hkept (hp.after_leaves hkept history) ctx

/-- A run of a model that was read from a file gives the same after any earlier runs as at first, if its
formulas assign scalars and its utilities assign nothing. -/
theorem run_after (history : List (Context Unit)) (ctx : Context Unit) (hparse : parse text = .ok m)
    (htrim : ∀ f ∈ m.formulas, Text.trim f.1.toList = f.1.toList) (hprepare : m.prepare = .ok p)
    (htarget : ∀ f ∈ p.formulas, TargetsScalar p.data f.2)
    (hidle : ∀ u ∈ p.utilities, ∀ row ∈ u.rows, row.expression.target? = none) :
    ((p.after history).run ctx).1 = (p.run ctx).1 :=
  (Checked.of_parse hparse).run_after_eq history ctx htrim hprepare htarget hidle

end Prepare

section Weighted

open Yaml (tokens? document? read? float?)

/-- The formulas of `doubling`, with a utility that weighs the second one. -/
def weighted (x : Float) : Model where
  formulas := doubling.formulas
  utilities := [{
    name := "u"
    alternatives := ["x"]
    rows := [{ text := "b", coefficients := [x] }] }]

def weightedText : String :=
  "formulas:\n  a: $orig\n  b: a + a\nutilities:\n- name: u\n  alternatives: [x]\n  rows:\n  - expression: b\n    coefficients: [.inf]\n"

def weightedNode : Yaml.Node := .mapping {} [
  (.scalar {} .plain "formulas", .mapping {} [
    (.scalar {} .plain "a", .scalar {} .plain "$orig"),
    (.scalar {} .plain "b", .scalar {} .plain "a + a")]),
  (.scalar {} .plain "utilities", .sequence {} [.mapping {} [
    (.scalar {} .plain "name", .scalar {} .plain "u"),
    (.scalar {} .plain "alternatives", .sequence {} [.scalar {} .plain "x"]),
    (.scalar {} .plain "rows", .sequence {} [.mapping {} [
      (.scalar {} .plain "expression", .scalar {} .plain "b"),
      (.scalar {} .plain "coefficients", .sequence {} [.scalar {} .plain ".inf"])]])]])]

set_option maxRecDepth 20000 in
theorem document_weighted : document? weightedText = some weightedNode := by
  have htokens : tokens? weightedText = some [.blockMapping, .key, .scalar .plain "formulas", .value,
      .blockMapping, .key, .scalar .plain "a", .value, .scalar .plain "$orig", .key,
      .scalar .plain "b", .value, .scalar .plain "a + a", .blockEnd, .key,
      .scalar .plain "utilities", .value, .blockEntry, .blockMapping, .key, .scalar .plain "name",
      .value, .scalar .plain "u", .key, .scalar .plain "alternatives", .value, .openSequence,
      .scalar .plain "x", .closeSequence, .key, .scalar .plain "rows", .value, .blockEntry,
      .blockMapping, .key, .scalar .plain "expression", .value, .scalar .plain "b", .key,
      .scalar .plain "coefficients", .value, .openSequence, .scalar .plain ".inf", .closeSequence,
      .blockEnd, .blockEnd, .blockEnd] := by
    cbv
  rw [document?, htokens]
  cbv

theorem model_weighted (left : Nat) :
    Document.model (⟨[], weightedNode⟩ : Yaml.Value) left = some (weighted (1.0 / 0.0), left) := by
  -- the number is left as it is while the document around it is read
  have hmodel : Document.model (⟨[], weightedNode⟩ : Yaml.Value) left =
      (weighted <$> Document.number (⟨[], .scalar {} .plain ".inf"⟩ : Yaml.Value)) left := by
    rfl
  have hnumber : Document.number (⟨[], .scalar {} .plain ".inf"⟩ : Yaml.Value) =
      (float? ".inf".toList).elim failure pure := by
    rfl
  have hinfinity : float? ".inf".toList = some (1.0 / 0.0) := by
    simp [float?, Yaml.dropPlus, Yaml.startsSigned]
  rw [hmodel, hnumber, hinfinity]
  rfl

theorem parse_weighted : parse weightedText = .ok (weighted (1.0 / 0.0)) := by
  have hread : read? Document.model weightedText = some (weighted (1.0 / 0.0)) := by
    have hanchored : weightedNode.anchored = [] := by
      cbv
    rw [read?, document_weighted]
    simp only [bind, Option.bind_some, hanchored, StateT.run', model_weighted]
    rfl
  have hcheck : ∀ x, (weighted x).check = .ok () := by
    intro x
    cbv
  rw [parse, hread]
  simp only [hcheck]

theorem compileFormulas_congr {m m' : Model} (h : m'.formulas = m.formulas)
    (order : List String) (v : Variables Unit) :
    m'.compileFormulas order v = m.compileFormulas order v := by
  induction order generalizing v with
  | nil => rfl
  | cons name order ih => simp only [compileFormulas, compileFormula, h, ih]

def weightedUtility (x : Float) : Utility where
  name := "u"
  alternatives := ["x"]
  rows := [⟨none, ⟨"b", .compiled ⟨Tree.program (.load ⟨"b", 2⟩), none⟩⟩, [x]⟩]

theorem prepare_weighted (x : Float) : (weighted x).prepare =
    .ok ⟨doublingData 2 0.0 0.0, doublingFormulas, [weightedUtility x]⟩ := by
  have horder : (weighted x).formulaOrder = .ok ["a", "b"] := by
    cbv
  have hformulas : (weighted x).compileFormulas ["a", "b"] {} =
      (.ok doublingFormulas, doublingData 2 0.0 0.0) :=
    (compileFormulas_congr rfl _ _).trans compileFormulas_doubling
  have hexpression : ∀ y z, Expression.compile "b" (doublingData 2 y z) =
      (.ok ⟨Tree.program (.load ⟨"b", 2⟩), none⟩, doublingData 2 y z) := by
    intro y z
    cbv
  have hutilities : compileUtilities (weighted x).utilities (doublingData 2 0.0 0.0) =
      (.ok [weightedUtility x], doublingData 2 0.0 0.0) := by
    have hrow := Utility.compileRow_of_unfiltered ⟨"u", ["x"], [{ text := "b", coefficients := [x] }]⟩ 1
      { text := "b", coefficients := [x] } rfl (hexpression 0.0 0.0) rfl
    simp only [weighted, compileUtilities, Utility.compile, Utility.compileRows, hrow]
    rfl
  exact prepare_eq_ok_iff.mpr ⟨{}, doublingData 2 0.0 0.0, ["a", "b"], rfl, horder, hformulas,
    hutilities⟩

/-- A run after another one and one that ends with an error at once, for want of an origin. -/
theorem run_after_weighted : ∃ m p, parse weightedText = .ok m ∧ m.prepare = .ok p ∧
    p.formulas.map Prod.fst = ["a", "b"] ∧ p.utilities.map Utility.name = ["u"] ∧
    ((p.after [{ origin := some 2 }, {}]).run { origin := some 1 }).1 =
      (p.run { origin := some 1 }).1 := by
  have hidle : ∀ u ∈ [weightedUtility (1.0 / 0.0)], ∀ row ∈ u.rows, row.expression.target? = none := by
    intro u hu row hrow
    cases List.mem_singleton.mp hu
    cases List.mem_singleton.mp hrow
    rfl
  exact ⟨_, _, parse_weighted, prepare_weighted _, rfl, rfl,
    run_after _ _ parse_weighted trim_doubling (prepare_weighted _) (targetsScalar_doubling 0.0 0.0)
      hidle⟩

end Weighted

end ChoiceModel.Model
