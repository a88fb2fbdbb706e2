import ChoiceModel.Proofs.Expression.Unreadable
import ChoiceModel.Proofs.Model.Cycle

/-! What a check says about the formulas of a model. With an order of the formulas each one is compiled,
and those that cannot be read are all reported. Without one a single error stands for all of them: the
first formula that cannot be split into lexemes, or else a formula on a cycle. -/

namespace ChoiceModel.Model

open Expression Store

variable {m : Model} {v : Variables Unit} {name text : String}

/-- The errors of the formulas of a model, and the variables that its utilities are compiled against. -/
def formulaReport (m : Model) (v : Variables Unit) : List Error × Variables Unit :=
  match m.formulaOrder with
  | .error e => ([e], v)
  | .ok order => m.formulaErrors order v

theorem errors_eq_report (h : m.data = .ok v) :
    m.errors = (m.formulaReport v).1 ++ utilityErrors m.utilities (m.formulaReport v).2 := by
  rw [errors, h, formulaReport]
  cases m.formulaOrder with
  | error e => rfl
  | ok order => rfl

/-- The error says that the text of a formula, alone or as an assignment, does not compile. -/
def Error.Concerns (e : Error) (name text : String) : Prop :=
  ∃ cause, e = .compile text cause ∨ e = .compile (name ++ " = " ++ text) cause

/-- The first formula that cannot be split into lexemes. -/
def unscanned? (m : Model) : Option (String × String) :=
  m.formulas.find? fun f => !(variableNames f.2).isOk

theorem formulaReads_eq_error_iff {e : Error} : m.formulaReads = .error e ↔
    ∃ f cause, m.unscanned? = some f ∧ variableNames f.2 = .error cause ∧ e = .compile f.2 cause := by
  rw [formulaReads, mapM_eq_error_iff]
  refine exists_congr fun f => ?_
  have hfind : ∀ g : String × String → Except Error (String × List String),
      (∀ f, (g f).isOk = (variableNames f.2).isOk) →
        m.formulas.find? (fun f => !(g f).isOk) = m.unscanned? := by
    intro g hg
    simp only [hg, unscanned?]
  rw [hfind _ fun ⟨_, text⟩ => by dsimp only; cases variableNames text <;> rfl]
  obtain ⟨name, text⟩ := f
  cases hnames : variableNames text with
  | ok names => simp [hnames]
  | error cause =>
    simp only [hnames, Except.error.injEq]
    exact ⟨fun ⟨hf, he⟩ => ⟨cause, hf, rfl, he.symm⟩, fun ⟨_, hf, hcause, he⟩ => ⟨hf, hcause ▸ he.symm⟩⟩

/-- Without an order one error stands for all formulas. -/
theorem formulaOrder_eq_error {e : Error} (hnames : (m.formulas.map Prod.fst).Nodup)
    (h : m.formulaOrder = .error e) :
    (∃ f cause, m.unscanned? = some f ∧ variableNames f.2 = .error cause ∧ e = .compile f.2 cause) ∨
      m.unscanned? = none ∧ ∃ n, e = .circular n ∧ Relation.TransGen m.Feeds n n := by
  cases hreads : m.formulaReads with
  | error e' =>
    have he : e' = e := by
      rw [formulaOrder, hreads] at h
      exact Except.error.inj h
    exact .inl (he ▸ formulaReads_eq_error_iff.mp hreads)
  | ok reads =>
    obtain ⟨-, htexts⟩ := formulaReads_eq_ok hreads
    refine .inr ⟨?_, ?_⟩
    · refine List.find?_eq_none.mpr fun f hf => ?_
      rw [htexts f hf]
      exact Bool.false_ne_true
    · rw [formulaOrder_of_forall htexts] at h
      cases hsort : sortReads (m.formulas.map m.formulasRead) with
      | ok order =>
        rw [hsort] at h
        cases h
      | error n =>
        rw [hsort] at h
        cases h
        exact ⟨n, rfl, sortReads_formulas_eq_error hnames htexts hsort⟩

/-- An order is there for formulas that can all be split into lexemes, and lists every one. -/
theorem mem_formulaOrder {order : List String} (hnames : (m.formulas.map Prod.fst).Nodup)
    (h : m.formulaOrder = .ok order) :
    m.unscanned? = none ∧ (∀ n, ¬ Relation.TransGen m.Feeds n n) ∧
      ∀ f ∈ m.formulas, f.1 ∈ order := by
  unfold formulaOrder at h
  obtain ⟨reads, hreads, h⟩ := exists_of_bind_eq_ok h
  obtain ⟨rfl, htexts⟩ := formulaReads_eq_ok hreads
  cases hsort : sortReads (m.formulas.map m.formulasRead) with
  | error n =>
    rw [hsort] at h
    cases h
  | ok order' =>
    rw [hsort] at h
    cases h
    obtain ⟨hperm, hbefore⟩ := sortReads_formulas_eq_ok hnames htexts hsort
    refine ⟨List.find?_eq_none.mpr fun f hf => ?_, acyclic_of_order hbefore, fun f hf => ?_⟩
    · rw [htexts f hf]
      exact Bool.false_ne_true
    · exact hperm.mem_iff.mpr (List.mem_map_of_mem hf)

theorem compileFormula_of_unreadable (hlookup : m.formulas.lookup name = some text)
    (htext : Unreadable text) (v : Variables Unit) :
    ∃ cause w, m.compileFormula name v = (.error (.compile (name ++ " = " ++ text) cause), w) := by
  rw [compileFormula, hlookup]
  simp only [Option.getD_some]
  split
  · rename_i hcompiled
    obtain ⟨c, hcompile, -⟩ := Expression.ofText?_eq_ok_iff.mp hcompiled
    exact absurd htext (not_unreadable_of_compile hcompile)
  · rename_i cause w _
    exact ⟨cause, w, rfl⟩

/-- A formula that cannot be read is reported, whatever has been compiled before it. -/
theorem mem_formulaErrors (hlookup : m.formulas.lookup name = some text) (htext : Unreadable text)
    {order : List String} (hmem : name ∈ order) (v : Variables Unit) :
    ∃ cause, .compile (name ++ " = " ++ text) cause ∈ (m.formulaErrors order v).1 := by
  induction order generalizing v with
  | nil => cases hmem
  | cons other order ih =>
    rw [formulaErrors]
    rcases List.mem_cons.mp hmem with rfl | hmem
    · obtain ⟨cause, w, herror⟩ := compileFormula_of_unreadable hlookup htext v
      rw [herror]
      exact ⟨cause, List.mem_cons_self⟩
    · split
      · exact ih hmem _
      · obtain ⟨cause, hcause⟩ := ih hmem _
        exact ⟨cause, List.mem_cons_of_mem _ hcause⟩

/-- A formula that cannot be read is reported exactly when the formulas have an order, unless the error
that stands in for an order is about a text of its own. -/
theorem unreadable_reported_iff (hdata : m.data = .ok v) (hnames : (m.formulas.map Prod.fst).Nodup)
    (hformula : (name, text) ∈ m.formulas) (htext : Unreadable text) :
    m.errors = (m.formulaReport v).1 ++ utilityErrors m.utilities (m.formulaReport v).2 ∧
    ((∃ e ∈ (m.formulaReport v).1, e.Concerns name text) ↔
      match m.unscanned? with
      | none => ∀ n, ¬ Relation.TransGen m.Feeds n n
      | some f => f.2 = text ∨ f.2 = name ++ " = " ++ text) := by
  refine ⟨errors_eq_report hdata, ?_⟩
  rw [formulaReport]
  cases horder : m.formulaOrder with
  | ok order =>
    obtain ⟨hscanned, hacyclic, hmem⟩ := mem_formulaOrder hnames horder
    obtain ⟨cause, hcause⟩ :=
      mem_formulaErrors (lookup_of_nodup hnames hformula) htext (hmem _ hformula) v
    rw [hscanned]
    exact iff_of_true ⟨_, hcause, cause, .inr rfl⟩ hacyclic
  | error e =>
    simp only [List.mem_singleton, exists_eq_left]
    rcases formulaOrder_eq_error hnames horder with ⟨f, cause, hfirst, -, rfl⟩ | ⟨hscanned, n, rfl, hcycle⟩
    · rw [hfirst]
      constructor
      · rintro ⟨_, hsame | hsame⟩
        · exact .inl (Error.compile.inj hsame).1
        · exact .inr (Error.compile.inj hsame).1
      · rintro (hsame | hsame)
        · exact ⟨cause, .inl (by rw [hsame])⟩
        · exact ⟨cause, .inr (by rw [hsame])⟩
    · rw [hscanned]
      exact iff_of_false (by simp [Error.Concerns]) fun hacyclic => hacyclic n hcycle

/-- The formula `b` is reported beside `a`, which reads a name that means nothing. -/
theorem unreadable_reported_iff_unknown : ∃ (m : Model) (v : Variables Unit),
    m.formulas = [("a", "missing"), ("b", "(a")] ∧ m.data = .ok v ∧
      (m.formulas.map Prod.fst).Nodup ∧ ("b", "(a") ∈ m.formulas ∧ Unreadable "(a" ∧
      ∃ e ∈ m.errors, e.Concerns "b" "(a" := by
  generalize hm : ({ formulas := [("a", "missing"), ("b", "(a")] } : Model) = m
  have hformulas : m.formulas = [("a", "missing"), ("b", "(a")] := by rw [← hm]
  have hdata : m.data = .ok {} := by
    rw [← hm]
    rfl
  have hnames : (m.formulas.map Prod.fst).Nodup := by
    rw [hformulas]
    decide
  have hmem : ("b", "(a") ∈ m.formulas := by
    rw [hformulas]
    exact List.mem_cons_of_mem _ List.mem_cons_self
  have htext : Unreadable "(a" := ⟨.unbalanced 0, by cbv⟩
  have horder : m.formulaOrder = .ok ["a", "b"] := by
    rw [← hm]
    cbv
  obtain ⟨hscanned, hacyclic, -⟩ := mem_formulaOrder hnames horder
  obtain ⟨herrors, hreported⟩ := unreadable_reported_iff hdata hnames hmem htext
  rw [hscanned] at hreported
  obtain ⟨e, he, hconcerns⟩ := hreported.mpr hacyclic
  refine ⟨m, {}, hformulas, hdata, hnames, hmem, htext, e, ?_, hconcerns⟩
  rw [herrors]
  exact List.mem_append_left _ he

/-- Two formulas that cannot be read, of which the first has no lexemes either. -/
def concealing : Model := { formulas := [("a", "1..2"), ("b", "(2")] }

/-- Only the formula `a` is reported. -/
theorem not_reported_concealed : ¬ ∀ (m : Model) (v : Variables Unit) (name text : String),
    m.data = .ok v → (m.formulas.map Prod.fst).Nodup → (name, text) ∈ m.formulas → Unreadable text →
      ∃ e ∈ m.errors, e.Concerns name text := by
  intro h
  have herrors : concealing.errors = [.compile "1..2" (.malformed (.invalidNumber "1..2") 0)] := by
    cbv
  have htext : Unreadable "(2" := ⟨.unbalanced 0, by cbv⟩
  obtain ⟨e, he, cause, hconcerns⟩ := h concealing {} "b" "(2" rfl (by decide)
    (List.mem_cons_of_mem _ List.mem_cons_self) htext
  rw [herrors, List.mem_singleton] at he
  subst he
  rcases hconcerns with hsame | hsame
  · exact absurd (Error.compile.inj hsame).1 (by decide)
  · exact absurd (Error.compile.inj hsame).1 (by decide)

end ChoiceModel.Model
