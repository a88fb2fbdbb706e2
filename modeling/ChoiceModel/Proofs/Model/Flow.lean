import ChoiceModel.Proofs.Expression.Sound
import ChoiceModel.Proofs.Model.Equations
import ChoiceModel.Proofs.Store.Cell

/-! The flow of values between formulas. The order looks at names; a formula that reads what another one
assigns comes behind it as soon as it has the same name for it, and only zone columns have several. -/

namespace ChoiceModel

open Expression Store

variable {ο : Type}

namespace Expression

/-- The program of the expression loads the value in the cell. -/
def ReadsCell (v : Variables ο) (ctx : Store.Context ο) (cell : Cell) (e : Expression) : Prop :=
  ∃ p i, e.program? = some p ∧ i ∈ p.loads ∧ v.cellAt? i ctx = some cell

/-- The value of the expression is assigned to the cell. -/
def WritesCell (v : Variables ο) (ctx : Store.Context ο) (cell : Cell) (e : Expression) : Prop :=
  ∃ i, e.target? = some i ∧ v.cellAt? i ctx = some cell

end Expression

namespace Model

variable {text : String} {m : Model} {p : Prepared}

theorem ReadsInOrder.idxOf_lt {names : String → List String} {order : List String}
    (horder : ReadsInOrder names order) {name other : String} (hname : name ∈ order)
    (hother : other ∈ order) (hread : other ∈ names name) : order.idxOf other < order.idxOf name := by
  induction order with
  | nil => cases hname
  | cons first rest ih =>
    obtain ⟨-, hfirst, hrest⟩ := horder
    have hne : name ≠ first := by
      rintro rfl
      exact hfirst other hother hread
    have hname := (List.mem_cons.mp hname).resolve_left hne
    rw [List.idxOf_cons_ne _ (Ne.symm hne)]
    by_cases heq : other = first
    · rw [heq, List.idxOf_cons_self]
      exact Nat.succ_pos _
    · rw [List.idxOf_cons_ne _ (Ne.symm heq)]
      exact Nat.succ_lt_succ (ih hrest hname ((List.mem_cons.mp hother).resolve_left heq))

theorem data_grounded {v : Variables Unit} (h : m.data = .ok v) : v.Grounded := by
  unfold data at h
  split at h
  · rename_i hload
    cases h
    exact Variables.grounded_of_bindings_eq_empty (Variables.load_bindings hload)
  · cases h

theorem prepared_grounded (h : m.prepare = .ok p) : p.data.Grounded := by
  obtain ⟨v, hdata, hgrows⟩ := prepare_resolving resolving_grows h
  exact hgrows.grounded (data_grounded hdata)

theorem prepared_assigns (hm : m.Checked) (hprepare : m.prepare = .ok p) :
    ReadsInOrder m.textNames (p.formulas.map Prod.fst) ∧ ∀ f ∈ p.formulas, ∃ c,
      f.2.state = .compiled c ∧
        Assigns p.data (String.ofList (Text.trim f.1.toList)) (m.textNames f.1) c := by
  obtain ⟨hformulas, hinorder, -⟩ := prepared_forall resolving_extends (P := fun w f => ∃ c,
    f.2.state = .compiled c ∧ Assigns w (String.ofList (Text.trim f.1.toList)) (m.textNames f.1) c)
    (fun _ _ _ hvw ⟨c, hstate, hassigns⟩ => ⟨c, hstate, hassigns.mono hvw⟩)
    (fun f _ hname hreads v e w hcompiled => by
      obtain ⟨c, hcompile, rfl⟩ := compileFormula_eq_ok_iff.mp hcompiled
      exact ⟨c, rfl, compile_assigns_trim hname hreads hcompile⟩) hm hprepare
  exact ⟨hinorder, hformulas⟩

/-- A formula that reads a cell which another one assigns comes behind it, or else its text does not
mention the other one, and the cell has several names: it is in a zone column, or the name of the
other formula has blanks around it. -/
theorem Checked.idxOf_lt_of_cell {f g : String × Expression} {ctx : Context Unit} {cell : Cell}
    (hm : m.Checked) (hprepare : m.prepare = .ok p) (hf : f ∈ p.formulas)
    (hg : g ∈ p.formulas) (hread : f.2.ReadsCell p.data ctx cell)
    (hwrite : g.2.WritesCell p.data ctx cell) :
    (p.formulas.map Prod.fst).idxOf g.1 < (p.formulas.map Prod.fst).idxOf f.1 ∨
      g.1 ∉ m.textNames f.1 ∧
        ((∃ column row, cell = .zone column row) ∨ Text.trim g.1.toList ≠ g.1.toList) := by
  obtain ⟨hinorder, hassigns⟩ := prepared_assigns hm hprepare
  by_cases hmention : g.1 ∈ m.textNames f.1
  · exact .inl (hinorder.idxOf_lt (List.mem_map_of_mem hf) (List.mem_map_of_mem hg) hmention)
  refine .inr ⟨hmention, or_iff_not_imp_right.mpr fun htrim => ?_⟩
  rw [ne_eq, not_not] at htrim
  obtain ⟨q, i, hq, hi, hcell⟩ := hread
  obtain ⟨j, hj, hcell'⟩ := hwrite
  obtain ⟨b, hb, hcell⟩ := Variables.cellAt?_eq_some hcell
  obtain ⟨b', hb', hcell'⟩ := Variables.cellAt?_eq_some hcell'
  -- the name that is read is one in the text of the one formula
  have hname : b.name ∈ m.textNames f.1 := by
    obtain ⟨c, hstate, hc⟩ := hassigns f hf
    rw [program?, compiled?, hstate] at hq
    cases hq
    obtain ⟨b₁, hb₁, hname⟩ := hc.loads i hi
    cases hb.symm.trans hb₁
    exact hname
  -- and the name that is assigned is that of the other
  have hname' : b'.name = g.1 := by
    obtain ⟨c, hstate, hc⟩ := hassigns g hg
    obtain ⟨j', hj', b₁, hb₁, hname'⟩ := hc.target
    rw [target?, compiled?, hstate] at hj
    cases hj'.symm.trans hj
    cases hb'.symm.trans hb₁
    rw [htrim, String.ofList_toList] at hname'
    exact List.mem_singleton.mp hname'
  rcases Variables.name_eq_of_cell (prepared_grounded hprepare) hb hb' hcell hcell' with heq | hzone
  · rw [heq, hname'] at hname
    exact (hmention hname).elim
  · exact hzone.1

/-- Among the formulas of a model that was read from a file, one that reads a cell comes behind the one
that assigns it, unless it does not mention it and the cell has several names. -/
theorem before_of_cell {f g : String × Expression} {ctx : Context Unit} {cell : Cell}
    (hparse : parse text = .ok m) (hprepare : m.prepare = .ok p) (hf : f ∈ p.formulas)
    (hg : g ∈ p.formulas) (hread : f.2.ReadsCell p.data ctx cell)
    (hwrite : g.2.WritesCell p.data ctx cell) :
    (p.formulas.map Prod.fst).idxOf g.1 < (p.formulas.map Prod.fst).idxOf f.1 ∨
      g.1 ∉ m.textNames f.1 ∧
        ((∃ column row, cell = .zone column row) ∨ Text.trim g.1.toList ≠ g.1.toList) :=
  (Checked.of_parse hparse).idxOf_lt_of_cell hprepare hf hg hread hwrite

/-- The formula that doubles the other one reads the scalar that this one assigns. -/
theorem before_of_cell_doubling : ∃ p f g, doubling.prepare = .ok p ∧ f ∈ p.formulas ∧
    g ∈ p.formulas ∧ f.2.ReadsCell p.data {} (.scalar 0) ∧ g.2.WritesCell p.data {} (.scalar 0) ∧
    (p.formulas.map Prod.fst).idxOf g.1 < (p.formulas.map Prod.fst).idxOf f.1 := by
  have hread : ReadsCell (doublingData 2 0.0 0.0) {} (.scalar 0) ⟨"b = a + a",
      .compiled ⟨Tree.program (.operator .add (.load ⟨"a", 1⟩) (.load ⟨"a", 1⟩)), some 2⟩⟩ :=
    ⟨Tree.program (.operator .add (.load ⟨"a", 1⟩) (.load ⟨"a", 1⟩)), 1, rfl, by decide, rfl⟩
  have hwrite : WritesCell (doublingData 2 0.0 0.0) {} (.scalar 0)
      ⟨"a = $orig", .compiled ⟨Tree.program (.load ⟨"$orig", 0⟩), some 1⟩⟩ :=
    ⟨1, rfl, rfl⟩
  have hf : ("b", _) ∈ doublingFormulas := .tail _ List.mem_cons_self
  have hg : ("a", _) ∈ doublingFormulas := List.mem_cons_self
  refine ⟨_, _, _, prepare_doubling, hf, hg, hread, hwrite, ?_⟩
  refine (before_of_cell parse_doubling prepare_doubling hf hg hread hwrite).resolve_right ?_
  rintro ⟨-, ⟨column, row, h⟩ | h⟩
  · cases h
  · exact h (by cbv)

section Parking

open Yaml (tokens? document? read? float?)

/-- A zone column that one formula assigns and another one reads for the origin of a trip. -/
def parking (x : Float) : Model where
  zones := some { columns := [("parking", #[x])] }
  formulas := [("parking", "$alt"), ("rate", "orig.parking")]

def parkingText : String :=
  "zones:\n  columns:\n    parking: [.inf]\nformulas:\n  parking: $alt\n  rate: orig.parking\n"

def parkingNode : Yaml.Node := .mapping {} [
  (.scalar {} .plain "zones", .mapping {} [(.scalar {} .plain "columns", .mapping {} [
    (.scalar {} .plain "parking", .sequence {} [.scalar {} .plain ".inf"])])]),
  (.scalar {} .plain "formulas", .mapping {} [
    (.scalar {} .plain "parking", .scalar {} .plain "$alt"),
    (.scalar {} .plain "rate", .scalar {} .plain "orig.parking")])]

/-- The variables of the model once the first `n` formulas have been compiled. -/
def parkingData (n : Nat) (x y : Float) : Variables Unit where
  scalars := ⟨(#[("rate", y)] : Array (String × Float)).take n⟩
  zones := ⟨#[("parking", #[x])], 1⟩
  bindings := #[⟨"orig.parking", .zone 0 .origin⟩, ⟨"rate", .scalar 0⟩, ⟨"$alt", .loop .alternative⟩,
    ⟨"parking", .zone 0 .origin⟩].take (2 * n)

def parkingFormulas : List (String × Expression) :=
  [("rate", ⟨"rate = orig.parking",
      .compiled ⟨Tree.program (.load ⟨"orig.parking", 0⟩), some 1⟩⟩),
    ("parking", ⟨"parking = $alt", .compiled ⟨Tree.program (.load ⟨"$alt", 2⟩), some 3⟩⟩)]

set_option maxRecDepth 20000 in
theorem document_parking : document? parkingText = some parkingNode := by
  have htokens : tokens? parkingText = some [.blockMapping, .key, .scalar .plain "zones", .value,
      .blockMapping, .key, .scalar .plain "columns", .value, .blockMapping, .key,
      .scalar .plain "parking", .value, .openSequence, .scalar .plain ".inf", .closeSequence,
      .blockEnd, .blockEnd, .key, .scalar .plain "formulas", .value, .blockMapping, .key,
      .scalar .plain "parking", .value, .scalar .plain "$alt", .key, .scalar .plain "rate", .value,
      .scalar .plain "orig.parking", .blockEnd, .blockEnd] := by
    cbv
  rw [document?, htokens]
  cbv

theorem model_parking (left : Nat) :
    Document.model (⟨[], parkingNode⟩ : Yaml.Value) left = some (parking (1.0 / 0.0), left) := by
  -- the number is left as it is while the document around it is read
  have hmodel : Document.model (⟨[], parkingNode⟩ : Yaml.Value) left =
      (parking <$> Document.number (⟨[], .scalar {} .plain ".inf"⟩ : Yaml.Value)) left := by
    rfl
  have hnumber : Document.number (⟨[], .scalar {} .plain ".inf"⟩ : Yaml.Value) =
      (float? ".inf".toList).elim failure pure := by
    rfl
  have hinfinity : float? ".inf".toList = some (1.0 / 0.0) := by
    simp [float?, Yaml.dropPlus, Yaml.startsSigned]
  rw [hmodel, hnumber, hinfinity]
  rfl

theorem parse_parking : parse parkingText = .ok (parking (1.0 / 0.0)) := by
  have hread : read? Document.model parkingText = some (parking (1.0 / 0.0)) := by
    have hanchored : parkingNode.anchored = [] := by
      cbv
    rw [read?, document_parking]
    simp only [bind, Option.bind_some, hanchored, StateT.run', model_parking]
    rfl
  have hcheck : ∀ x, (parking x).check = .ok () := fun _ => rfl
  rw [parse, hread]
  simp only [hcheck]

theorem compileFormulas_parking (x : Float) :
    (parking x).compileFormulas ["rate", "parking"] (parkingData 0 x 0.0) =
      (.ok parkingFormulas, parkingData 2 x 0.0) := by
  have hnames := (Checked.of_parse parse_parking).names
  have hfirst : ∀ y, compile ("rate" ++ " = " ++ "orig.parking") (parkingData 0 x y) =
      (.ok ⟨Tree.program (.load ⟨"orig.parking", 0⟩), some 1⟩, parkingData 1 x 0.0) := by
    intro y
    have hassign : Variables.resolveAssign "rate"
        { parkingData 0 x y with bindings := #[⟨"orig.parking", .zone 0 .origin⟩] } =
        (some 1, parkingData 1 x 0.0) :=
      Variables.resolveAssign_of_free (by cbv) (by cbv) (by cbv) (by cbv)
    exact (compile_assignment_eq_ok_iff
      (hnames ("rate", "orig.parking") (.tail _ List.mem_cons_self))).mpr
      ⟨_, 1, by cbv, rfl, hassign, rfl⟩
  -- the zone column gets a second binding under its bare name
  have hsecond : ∀ y, compile ("parking" ++ " = " ++ "$alt") (parkingData 1 x y) =
      (.ok ⟨Tree.program (.load ⟨"$alt", 2⟩), some 3⟩, parkingData 2 x y) := by
    intro y
    exact (compile_assignment_eq_ok_iff (hnames ("parking", "$alt") List.mem_cons_self)).mpr
      ⟨{ parkingData 1 x y with
        bindings := (parkingData 1 x y).bindings.push ⟨"$alt", .loop .alternative⟩ },
        3, by cbv, rfl, by cbv, rfl⟩
  have hrate : (parking x).compileFormula "rate" (parkingData 0 x 0.0) =
      (.ok _, parkingData 1 x 0.0) :=
    compileFormula_eq_ok_iff.mpr ⟨_, hfirst 0.0, rfl⟩
  have hparking : (parking x).compileFormula "parking" (parkingData 1 x 0.0) =
      (.ok _, parkingData 2 x 0.0) :=
    compileFormula_eq_ok_iff.mpr ⟨_, hsecond 0.0, rfl⟩
  simp only [compileFormulas, hrate, hparking]
  rfl

theorem prepare_parking (x : Float) :
    (parking x).prepare = .ok ⟨parkingData 2 x 0.0, parkingFormulas, []⟩ := by
  have hzones : loadTable (parking x).zones = .ok ⟨#[("parking", #[x])], 1⟩ := by
    simp [parking, loadTable, DataTable.ofColumns, DataTable.addColumn, DataTable.indexOf?,
      Except.map]
  have hmatrices : (parking x).loadMatrices = .ok {} := by
    rfl
  have hdata : (parking x).data = .ok (parkingData 0 x 0.0) := by
    rw [data, load, hzones, hmatrices]
    rfl
  have horder : (parking x).formulaOrder = .ok ["rate", "parking"] := by
    cbv
  exact prepare_eq_ok_iff.mpr ⟨parkingData 0 x 0.0, parkingData 2 x 0.0, ["rate", "parking"], hdata,
    horder, compileFormulas_parking x, rfl⟩

/-- A formula that reads a zone column under the one name comes ahead of the formula that assigns the
column under the other. -/
theorem not_before_parking : ∃ m p f g cell,
    parse "zones:\n  columns:\n    parking: [.inf]\nformulas:\n  parking: $alt\n  rate: orig.parking\n" =
      .ok m ∧ m.prepare = .ok p ∧ f ∈ p.formulas ∧ g ∈ p.formulas ∧ f.1 ≠ g.1 ∧
      f.2.ReadsCell p.data { origin := some 1 } cell ∧
      g.2.WritesCell p.data { origin := some 1 } cell ∧
      ¬(p.formulas.map Prod.fst).idxOf g.1 < (p.formulas.map Prod.fst).idxOf f.1 := by
  have hread : ReadsCell (parkingData 2 (1.0 / 0.0) 0.0) { origin := some 1 } (.zone 0 0)
      ⟨"rate = orig.parking", .compiled ⟨Tree.program (.load ⟨"orig.parking", 0⟩), some 1⟩⟩ :=
    ⟨Tree.program (.load ⟨"orig.parking", 0⟩), 0, rfl, by decide, rfl⟩
  have hwrite : WritesCell (parkingData 2 (1.0 / 0.0) 0.0) { origin := some 1 } (.zone 0 0)
      ⟨"parking = $alt", .compiled ⟨Tree.program (.load ⟨"$alt", 2⟩), some 3⟩⟩ :=
    ⟨3, rfl, rfl⟩
  exact ⟨_, _, _, _, _, parse_parking, prepare_parking _, List.mem_cons_self,
    .tail _ List.mem_cons_self, by decide, hread, hwrite, by decide⟩

end Parking

end Model

end ChoiceModel
