import ChoiceModel.Model.Prepared
import ChoiceModel.Proofs.Model.File
import ChoiceModel.Proofs.Model.Order
import ChoiceModel.Proofs.Store.Grounded
import ChoiceModel.Proofs.Utility

/-! What preparing a model makes of its formulas: assignments in an order in which each one comes
behind those that it reads. The names that it was compiled to read are those of its text. -/

namespace ChoiceModel.Model

open Expression Store

variable {v w : Variables Unit}

/-- The formula has been compiled among the variables, as an assignment of what it reads. -/
def Formulated (v : Variables Unit) (names : String → List String) (f : String × Expression) : Prop :=
  ∃ c, f.2.state = .compiled c ∧ Assigns v f.1 (names f.1) c

/-- Each name reads neither itself nor a name behind it. -/
def ReadsInOrder (names : String → List String) : List String → Prop
  | [] => True
  | name :: rest =>
    name ∉ rest ∧ (∀ other ∈ name :: rest, other ∉ names name) ∧ ReadsInOrder names rest

theorem Formulated.mono {names : String → List String} {f : String × Expression}
    (h : Formulated v names f) (hvw : v.Extends w) : Formulated w names f := by
  obtain ⟨c, hstate, hassigns⟩ := h
  exact ⟨c, hstate, hassigns.mono hvw⟩

section Compile

variable {m : Model}

/-- The unreserved names in a text that can be read. -/
def namesIn (text : String) : List String := (variableNames text).toOption.getD []

def textNames (m : Model) (name : String) : List String := namesIn ((m.formulas.lookup name).getD "")

/-- What the compilation of a formula relies on. -/
structure Compilable (m : Model) (name : String) : Prop where
  undelimited : ∀ c ∈ name.toList, isDelimiter c = false
  trimmed : Text.trim name.toList = name.toList
  reads : variableNames ((m.formulas.lookup name).getD "") = .ok (m.textNames name)

theorem compileFormula_eq_ok_iff {name : String} {e : Expression} :
    m.compileFormula name v = (.ok e, w) ↔
      ∃ c, compile (name ++ " = " ++ (m.formulas.lookup name).getD "") v = (.ok c, w) ∧
        e = ⟨name ++ " = " ++ (m.formulas.lookup name).getD "", .compiled c⟩ := by
  rw [← Expression.ofText?_eq_ok_iff]
  unfold compileFormula
  simp only
  generalize Expression.ofText? _ v = compiled
  obtain ⟨r, v₁⟩ := compiled
  cases r with
  | error cause => simp
  | ok e₁ => simp

theorem compileFormula_eq_ok {name : String} {e : Expression} (hname : Compilable m name)
    (h : m.compileFormula name v = (.ok e, w)) :
    e.text = name ++ " = " ++ (m.formulas.lookup name).getD "" ∧
      Formulated w m.textNames (name, e) := by
  obtain ⟨c, hcompile, rfl⟩ := compileFormula_eq_ok_iff.mp h
  exact ⟨rfl, c, rfl,
    compile_assigns hname.undelimited hname.trimmed hname.reads hcompile⟩

theorem compileFormula_resolving {R : Variables Unit → Variables Unit → Prop} (hR : Resolving R)
    (name : String) (v : Variables Unit) : R v (m.compileFormula name v).2 := by
  have hcompile := Expression.ofText?_resolving hR
    (name ++ " = " ++ (m.formulas.lookup name).getD "") v
  unfold compileFormula
  simp only
  rcases hcompiled : Expression.ofText? (name ++ " = " ++ (m.formulas.lookup name).getD "") v with
    ⟨r, v₁⟩
  rw [hcompiled] at hcompile
  cases r with
  | error cause => exact hcompile
  | ok e => exact hcompile

/-- What holds of each formula once it is compiled, and goes on to, holds of all of them at the end. -/
theorem compileFormulas_forall {R : Variables Unit → Variables Unit → Prop} (hR : Resolving R)
    {P : Variables Unit → String × Expression → Prop} (hmono : ∀ v w f, R v w → P v f → P w f)
    {order : List String} {formulas : List (String × Expression)}
    (hfirst : ∀ name ∈ order, ∀ v e w, m.compileFormula name v = (.ok e, w) → P w (name, e))
    (h : m.compileFormulas order v = (.ok formulas, w)) :
    R v w ∧ formulas.map Prod.fst = order ∧ ∀ f ∈ formulas, P w f := by
  induction order generalizing v formulas with
  | nil =>
    cases h
    exact ⟨hR.refl _, rfl, fun _ hf => nomatch hf⟩
  | cons name order ih =>
    rw [compileFormulas] at h
    split at h
    · cases h
    · rename_i e v₁ hcompiled
      split at h
      · cases h
      · rename_i es v₂ hrest
        cases h
        have hkept := m.compileFormula_resolving hR name v
        rw [hcompiled] at hkept
        obtain ⟨hkept', hnames, hall⟩ :=
          ih (fun n hn => hfirst n (List.mem_cons_of_mem _ hn)) hrest
        refine ⟨hR.trans _ _ _ hkept hkept', congrArg (name :: ·) hnames, fun f hf => ?_⟩
        rcases List.mem_cons.mp hf with rfl | hf
        · exact hmono v₁ w _ hkept' (hfirst name List.mem_cons_self v e v₁ hcompiled)
        · exact hall f hf

theorem compileUtilities_resolving {R : Variables Unit → Variables Unit → Prop} (hR : Resolving R)
    (specs : List UtilitySpec) (v : Variables Unit) : R v (compileUtilities specs v).2 := by
  induction specs generalizing v with
  | nil => exact hR.refl v
  | cons spec specs ih =>
    have hfirst := Utility.compile_resolving hR spec v
    rw [compileUtilities]
    rcases hcompiled : Utility.compile spec v with ⟨r, v₁⟩
    rw [hcompiled] at hfirst
    cases r with
    | error e => exact hfirst
    | ok u =>
      have hrest := hR.trans _ _ _ hfirst (ih v₁)
      simp only
      rcases hothers : compileUtilities specs v₁ with ⟨r, v₂⟩
      rw [hothers] at hrest
      cases r with
      | error e => exact hrest
      | ok us => exact hrest

theorem coherent_of_data (h : m.data = .ok v) : v.Coherent := by
  unfold data at h
  split at h
  · rename_i v' hload
    cases h
    intro i b slot hb
    rw [Variables.load_bindings hload] at hb
    cases hb
  · cases h

theorem prepare_eq_ok_iff {p : Prepared} :
    m.prepare = .ok p ↔ ∃ v w order, m.data = .ok v ∧ m.formulaOrder = .ok order ∧
      m.compileFormulas order v = (.ok p.formulas, w) ∧
      compileUtilities m.utilities w = (.ok p.utilities, p.data) := by
  constructor
  · intro h
    unfold prepare at h
    obtain ⟨v, hdata, h⟩ := exists_of_bind_eq_ok h
    obtain ⟨order, horder, h⟩ := exists_of_bind_eq_ok h
    split at h
    · cases h
    · rename_i formulas w hformulas
      split at h
      · cases h
      · rename_i hutilities
        cases h
        exact ⟨v, w, order, hdata, horder, hformulas, hutilities⟩
  · rintro ⟨v, w, order, hdata, horder, hformulas, hutilities⟩
    unfold prepare
    rw [hdata, horder]
    simp only [bind, Except.bind, hformulas, hutilities]
    rfl

end Compile

section Order

variable {m : Model} {reads : Reads} {order : List String}

def formulasRead (m : Model) (f : String × String) : String × List String :=
  (f.1, (namesIn f.2).filter fun n => (m.formulas.lookup n).isSome)

theorem map_fst_formulasRead (m : Model) :
    (m.formulas.map m.formulasRead).map Prod.fst = m.formulas.map Prod.fst := by
  rw [List.map_map]
  rfl

theorem namesIn_eq {text : String} {names : List String} (h : variableNames text = .ok names) :
    namesIn text = names := by
  rw [namesIn, h]
  rfl

theorem formulaReads_eq_ok (h : m.formulaReads = .ok reads) :
    reads = m.formulas.map m.formulasRead ∧
      ∀ f ∈ m.formulas, variableNames f.2 = .ok (namesIn f.2) := by
  unfold formulaReads at h
  obtain rfl : reads = m.formulas.map m.formulasRead := by
    refine eq_map_of_mapM_eq_ok (fun f r hr => ?_) h
    simp only at hr
    split at hr
    · rename_i names hnames
      cases hr
      rw [formulasRead, namesIn_eq hnames]
    · cases hr
  refine ⟨rfl, fun f hf => ?_⟩
  have hf := mapM_eq_ok_map_iff.mp h f hf
  simp only at hf
  split at hf
  · rename_i names hnames
    rw [hnames, namesIn_eq hnames]
  · cases hf

theorem readsInOrder_of_split {names : String → List String} (hnodup : order.Nodup)
    (h : ∀ before name after, order = before ++ name :: after →
      ∀ other ∈ name :: after, other ∉ names name) : ReadsInOrder names order := by
  induction order with
  | nil => trivial
  | cons name rest ih =>
    obtain ⟨hfresh, hnodup⟩ := List.nodup_cons.mp hnodup
    refine ⟨hfresh, h [] name rest rfl, ih hnodup fun before n after hsplit => ?_⟩
    exact h (name :: before) n after (congrArg (name :: ·) hsplit)

theorem formulaOrder_eq_ok (hsorted : Sorted m.formulas) (h : m.formulaOrder = .ok order) :
    (∀ n, n ∈ order ↔ n ∈ m.formulas.map Prod.fst) ∧ ReadsInOrder m.textNames order ∧
      ∀ f ∈ m.formulas, variableNames f.2 = .ok (namesIn f.2) := by
  unfold formulaOrder at h
  obtain ⟨reads, hreads, h⟩ := exists_of_bind_eq_ok h
  obtain ⟨rfl, hnames⟩ := formulaReads_eq_ok hreads
  split at h
  · rename_i order' hsort
    cases h
    have hreadsSorted : Sorted (m.formulas.map m.formulasRead) := List.pairwise_map.mpr hsorted
    obtain ⟨hnodup, hmem, hplaced⟩ := sortReads_eq_ok hsort hreadsSorted.nodup
    rw [map_fst_formulasRead] at hmem
    refine ⟨hmem, readsInOrder_of_split hnodup fun before name after hsplit other hother hread => ?_,
      hnames⟩
    have hformula : ∀ n ∈ name :: after, ∃ text, (n, text) ∈ m.formulas := by
      intro n hn
      have hn : n ∈ m.formulas.map Prod.fst := by
        rw [← hmem, hsplit]
        exact List.mem_append_right _ hn
      obtain ⟨f, hf, rfl⟩ := List.mem_map.mp hn
      exact ⟨f.2, hf⟩
    obtain ⟨text, htext⟩ := hformula name List.mem_cons_self
    obtain ⟨_, hothertext⟩ := hformula other hother
    rw [textNames, hsorted.lookup_eq htext] at hread
    have hreadBy : other ∈ readBy (m.formulas.map m.formulasRead) name := by
      have hlookup := hreadsSorted.lookup_eq (List.mem_map_of_mem (f := m.formulasRead) htext)
      rw [readBy, hlookup]
      refine List.mem_filter.mpr ⟨hread, ?_⟩
      rw [hsorted.lookup_eq hothertext]
      rfl
    -- so the other name stands in front of the formula as well as behind it
    have hbefore := hplaced before name after hsplit other hreadBy
    rw [hsplit] at hnodup
    exact (List.nodup_append.mp hnodup).2.2 other hbefore other hother rfl
  · cases h

end Order

/-- What resolutions keep holds between the data of a model and its variables once it is prepared. -/
theorem prepare_resolving {R : Variables Unit → Variables Unit → Prop} (hR : Resolving R) {m : Model}
    {p : Prepared} (h : m.prepare = .ok p) : ∃ v, m.data = .ok v ∧ R v p.data := by
  obtain ⟨v, w, order, hdata, -, hcompiled, hutilities⟩ := prepare_eq_ok_iff.mp h
  have hkept := compileUtilities_resolving hR m.utilities w
  rw [hutilities] at hkept
  obtain ⟨hkept', -, -⟩ := compileFormulas_forall hR (P := fun _ _ => True) (fun _ _ _ _ _ => trivial)
    (fun _ _ _ _ _ _ => trivial) hcompiled
  exact ⟨v, hdata, hR.trans _ _ _ hkept' hkept⟩

/-- What holds of each formula once it is compiled, and goes on to, holds of the prepared formulas;
these are the formulas of the model, each behind those that it reads. -/
theorem prepared_forall {m : Model} {p : Prepared}
    {R : Variables Unit → Variables Unit → Prop} (hR : Resolving R)
    {P : Variables Unit → String × Expression → Prop} (hmono : ∀ v w f, R v w → P v f → P w f)
    (hfirst : ∀ f ∈ m.formulas, (∀ c ∈ f.1.toList, isDelimiter c = false) →
      variableNames ((m.formulas.lookup f.1).getD "") = .ok (m.textNames f.1) →
      ∀ v e w, m.compileFormula f.1 v = (.ok e, w) → P w (f.1, e))
    (hm : m.Checked) (hprepare : m.prepare = .ok p) :
    (∀ f ∈ p.formulas, P p.data f) ∧ ReadsInOrder m.textNames (p.formulas.map Prod.fst) ∧
      ∀ n, n ∈ p.formulas.map Prod.fst ↔ n ∈ m.formulas.map Prod.fst := by
  obtain ⟨v, w, order, -, horder, hcompiled, hutilities⟩ := prepare_eq_ok_iff.mp hprepare
  have hkept := compileUtilities_resolving hR m.utilities w
  rw [hutilities] at hkept
  obtain ⟨hmem, hinorder, hreads⟩ := formulaOrder_eq_ok hm.sorted horder
  have hall : ∀ name ∈ order, ∀ v e w, m.compileFormula name v = (.ok e, w) → P w (name, e) := by
    intro name hname
    obtain ⟨f, hf, rfl⟩ := List.mem_map.mp ((hmem name).mp hname)
    refine hfirst f hf (hm.names f hf) ?_
    rw [textNames, hm.sorted.lookup_eq hf]
    exact hreads f hf
  obtain ⟨-, hkeys, hformulas⟩ := compileFormulas_forall hR hmono hall hcompiled
  exact ⟨fun f hf => hmono w p.data f hkept (hformulas f hf), hkeys ▸ hinorder, hkeys ▸ hmem⟩

theorem prepared_formulas {m : Model} {p : Prepared} (hm : m.Checked)
    (htrim : ∀ f ∈ m.formulas, Text.trim f.1.toList = f.1.toList) (hprepare : m.prepare = .ok p) :
    p.data.Coherent ∧ (∀ f ∈ p.formulas, Formulated p.data m.textNames f) ∧
      ReadsInOrder m.textNames (p.formulas.map Prod.fst) ∧
      ∀ f ∈ m.formulas, ∃ e, (f.1, e) ∈ p.formulas ∧ e.text = f.1 ++ " = " ++ f.2 := by
  obtain ⟨v, hdata, hextends⟩ := prepare_resolving resolving_extends hprepare
  obtain ⟨hformulas, hinorder, hmem⟩ := prepared_forall resolving_extends (P := fun w f =>
    f.2.text = f.1 ++ " = " ++ (m.formulas.lookup f.1).getD "" ∧ Formulated w m.textNames f)
    (fun _ _ _ hvw hf => ⟨hf.1, hf.2.mono hvw⟩) (fun f hf hname hreads _ _ _ hcompiled =>
      compileFormula_eq_ok ⟨hname, htrim f hf, hreads⟩ hcompiled) hm hprepare
  refine ⟨hextends.coherent (coherent_of_data hdata), fun f hf => (hformulas f hf).2, hinorder,
    fun f hf => ?_⟩
  obtain ⟨⟨name, e⟩, he, rfl⟩ := List.mem_map.mp ((hmem f.1).mpr (List.mem_map_of_mem hf))
  refine ⟨e, he, ?_⟩
  have htext := (hformulas _ he).1
  rw [hm.sorted.lookup_eq hf] at htext
  exact htext

end ChoiceModel.Model
