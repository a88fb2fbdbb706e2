import ChoiceModel.Model.Prepared
import ChoiceModel.Proofs.Store.Meaning

/-! Utilities that are rejected. By then the texts in front of the one at fault have been compiled, and the
names that they assign stay known. A later utility notices that only if it reads one of these names. -/

namespace ChoiceModel

open Expression Store
open Model (RowSpec UtilitySpec)

variable {σ ο ε α : Type}

namespace Expression

variable [Resolver σ] {texts more : List String} {s t u : σ}

/-- Texts that all compile, one after the other. -/
inductive Passes : List String → σ → σ → Prop where
  | nil (s : σ) : Passes [] s s
  | cons {text : String} {texts : List String} {e : Expression} {s t u : σ} :
    ofText? text s = (.ok e, t) → Passes texts t u → Passes (text :: texts) s u

/-- Texts of which the first ones compile, and the next one fails if it is tried at all. -/
def Stops (texts : List String) (s t : σ) : Prop :=
  ∃ passed rest u, texts = passed ++ rest ∧ Passes passed s u ∧
    (t = u ∨ ∃ text ∈ rest.head?, ∃ cause, ofText? text u = (.error cause, t))

/-- What has become of the texts when an attempt to compile all of them ends. -/
inductive Tries (texts : List String) (s : σ) : Except ε α × σ → Prop where
  | passed {t : σ} (a : α) : Passes texts s t → Tries texts s (.ok a, t)
  | stopped {t : σ} (e : ε) : Stops texts s t → Tries texts s (.error e, t)

theorem Passes.append (h : Passes texts s t) (h' : Passes more t u) : Passes (texts ++ more) s u := by
  induction h with
  | nil s => exact h'
  | cons htext _ ih => exact .cons htext (ih h')

theorem Passes.stops (h : Passes texts s t) : Stops texts s t :=
  ⟨texts, [], t, (List.append_nil _).symm, h, .inl rfl⟩

theorem Passes.stops_append (h : Passes texts s t) (h' : Stops more t u) : Stops (texts ++ more) s u := by
  obtain ⟨passed, rest, t', rfl, hpassed, hstop⟩ := h'
  exact ⟨texts ++ passed, rest, t', (List.append_assoc ..).symm, h.append hpassed, hstop⟩

theorem Stops.append (h : Stops texts s t) (more : List String) : Stops (texts ++ more) s t := by
  obtain ⟨passed, rest, u, rfl, hpassed, hstop⟩ := h
  refine ⟨passed, rest ++ more, u, List.append_assoc .., hpassed, hstop.imp_right ?_⟩
  rintro ⟨text, hnext, hfailed⟩
  exact ⟨text, by rw [List.head?_append, Option.mem_def.mp hnext]; rfl, hfailed⟩

theorem ofText?_tries (text : String) (s : σ) : Tries [text] s (ofText? text s) := by
  rcases htext : ofText? text s with ⟨r, t⟩
  cases r with
  | ok e => exact .passed e (.cons htext (.nil t))
  | error cause => exact .stopped cause ⟨[], [text], s, rfl, .nil s, .inr ⟨text, rfl, cause, htext⟩⟩

end Expression

namespace Utility

/-- The text of a filter, unless it is blank. -/
def filterText? (row : RowSpec) : Option String :=
  let text := String.ofList (Text.trim (row.filter.getD "").toList)
  if text.isEmpty then none else some text

def rowTexts (row : RowSpec) : List String := (filterText? row).toList ++ [row.text]

/-- The texts of a utility in the order in which they are compiled. -/
def specTexts (spec : UtilitySpec) : List String := spec.rows.flatMap rowTexts

section Tries

variable [Resolver σ] (spec : UtilitySpec) (number : Nat)

theorem compileFilter_tries (row : RowSpec) (s : σ) :
    Tries (filterText? row).toList s (compileFilter spec number row s) := by
  unfold compileFilter filterText?
  generalize String.ofList (Text.trim (row.filter.getD "").toList) = text
  simp only
  split
  · exact .passed none (.nil s)
  · have htext := ofText?_tries text s
    generalize ofText? text s = x at htext
    cases htext with
    | stopped cause hstop => exact .stopped _ hstop
    | passed filter hpassed =>
      simp only
      split
      · exact .stopped _ hpassed.stops
      · exact .passed _ hpassed

theorem compileRow_tries (row : RowSpec) (s : σ) :
    Tries (rowTexts row) s (compileRow spec number row s) := by
  have hfilter := compileFilter_tries spec number row s
  unfold compileRow rowTexts
  generalize compileFilter spec number row s = x at hfilter
  cases hfilter with
  | stopped e hstop => exact .stopped e (hstop.append _)
  | @passed t filter hpassed =>
    have htext := ofText?_tries row.text t
    simp only
    generalize ofText? row.text t = x at htext
    cases htext with
    | stopped cause hstop => exact .stopped _ (hpassed.stops_append hstop)
    | passed e hexpression =>
      have hrow := hpassed.append hexpression
      simp only
      split
      · exact .stopped _ hrow.stops
      · exact .passed _ hrow

theorem compileRows_tries (rows : List RowSpec) (s : σ) :
    Tries (rows.flatMap rowTexts) s (compileRows spec number rows s) := by
  induction rows generalizing number s with
  | nil => exact .passed [] (.nil s)
  | cons row rows ih =>
    have hfirst := compileRow_tries spec number row s
    rw [compileRows, List.flatMap_cons]
    generalize compileRow spec number row s = x at hfirst
    cases hfirst with
    | stopped e hstop => exact .stopped e (hstop.append _)
    | @passed t r hpassed =>
      have hrest := ih (number + 1) t
      simp only
      generalize compileRows spec (number + 1) rows t = x at hrest
      cases hrest with
      | stopped e hstop => exact .stopped e (hpassed.stops_append hstop)
      | passed rs hothers => exact .passed _ (hpassed.append hothers)

theorem compile_tries (s : σ) : Tries (specTexts spec) s (compile spec s) := by
  have hrows := compileRows_tries spec 1 spec.rows s
  unfold compile specTexts
  split
  · exact .stopped _ ⟨[], _, s, rfl, .nil s, .inl rfl⟩
  · generalize compileRows spec 1 spec.rows s = x at hrows
    cases hrows with
    | stopped e hstop => exact .stopped e hstop
    | passed rows hpassed => exact .passed _ hpassed

end Tries

end Utility

theorem Expression.Passes.learns {texts : List String} {v w : Variables ο} (h : Passes texts v w) :
    v.Learns (v.newNames texts) w := by
  induction h with
  | nil v => exact .refl v
  | cons htext _ ih =>
    have hfirst := Variables.learns_of_ok htext
    rw [Variables.newNames_cons hfirst]
    exact hfirst.trans ih

namespace Utility

/-- The row without the indices of its variables. -/
def Row.blank (row : Row) : Row := ⟨row.filter.map Expression.blank, row.expression.blank, row.coefficients⟩

def blank (u : Utility) : Utility := { u with rows := u.rows.map Row.blank }

section Indistinct

variable [Resolver σ] {P : String → Prop} {R : σ → σ → Prop} (hR : Indistinct P R) (spec : UtilitySpec)
  (number : Nat) {s t : σ}

theorem checkRow_congr (row : RowSpec) {e e' : Expression} (h : e.blank = e'.blank) :
    checkRow spec number row e = checkRow spec number row e' := by
  rw [checkRow, checkRow, ← Option.not_isSome, isSome_target?_congr h, Option.not_isSome]

include hR

theorem compileFilter_indistinct {row : RowSpec}
    (hrow : ∀ text ∈ filterText? row, ∀ name ∈ readNames text, P name) (hst : R s t) :
    SameOutcome (Option.map Expression.blank) R (compileFilter spec number row s)
      (compileFilter spec number row t) := by
  unfold compileFilter
  unfold filterText? at hrow
  generalize String.ofList (Text.trim (row.filter.getD "").toList) = text at hrow
  simp only at hrow ⊢
  split
  · exact .ok rfl hst
  · rename_i hblank
    rw [if_neg hblank] at hrow
    have htext := hR.ofText? (hrow text rfl) hst
    generalize ofText? text s = x, ofText? text t = y at htext
    cases htext with
    | error cause hafter => exact .error _ hafter
    | ok hexpressions hafter =>
      simp only [isSome_target?_congr hexpressions]
      split
      · exact .error _ hafter
      · exact .ok (congrArg some hexpressions) hafter

theorem compileRow_indistinct {row : RowSpec}
    (hrow : ∀ text ∈ rowTexts row, ∀ name ∈ readNames text, P name) (hst : R s t) :
    SameOutcome Row.blank R (compileRow spec number row s) (compileRow spec number row t) := by
  have hfilter := compileFilter_indistinct hR spec number
    (fun text htext => hrow text (List.mem_append_left _ (Option.mem_toList.mpr htext))) hst
  unfold compileRow
  generalize compileFilter spec number row s = x, compileFilter spec number row t = y at hfilter
  cases hfilter with
  | error e hafter => exact .error e hafter
  | @ok filter filter' s₁ t₁ hfilters hafter =>
    have htext := hR.ofText? (hrow row.text (List.mem_append_right _ List.mem_cons_self)) hafter
    simp only
    generalize ofText? row.text s₁ = x, ofText? row.text t₁ = y at htext
    cases htext with
    | error cause hafter => exact .error _ hafter
    | ok hexpressions hafter =>
      simp only [checkRow_congr spec number row hexpressions]
      split
      · exact .error _ hafter
      · exact .ok (by rw [Row.blank, Row.blank, hfilters, hexpressions]) hafter

theorem compileRows_indistinct {rows : List RowSpec}
    (hrows : ∀ text ∈ rows.flatMap rowTexts, ∀ name ∈ readNames text, P name) (hst : R s t) :
    SameOutcome (List.map Row.blank) R (compileRows spec number rows s)
      (compileRows spec number rows t) := by
  induction rows generalizing number s t with
  | nil => exact .ok rfl hst
  | cons row rows ih =>
    rw [List.flatMap_cons, List.forall_mem_append] at hrows
    have hfirst := compileRow_indistinct hR spec number hrows.1 hst
    rw [compileRows, compileRows]
    generalize compileRow spec number row s = x, compileRow spec number row t = y at hfirst
    cases hfirst with
    | error e hafter => exact .error e hafter
    | @ok r r' s₁ t₁ hrow hafter =>
      have hrest := ih (number + 1) hrows.2 hafter
      simp only
      generalize compileRows spec (number + 1) rows s₁ = x,
        compileRows spec (number + 1) rows t₁ = y at hrest
      cases hrest with
      | error e hafter => exact .error e hafter
      | ok hothers hafter => exact .ok (by rw [List.map_cons, List.map_cons, hrow, hothers]) hafter

theorem compile_indistinct {spec : UtilitySpec}
    (hspec : ∀ text ∈ specTexts spec, ∀ name ∈ readNames text, P name) (hst : R s t) :
    SameOutcome blank R (compile spec s) (compile spec t) := by
  have hrows := compileRows_indistinct hR spec 1 hspec hst
  unfold compile
  split
  · exact .error _ hst
  · generalize compileRows spec 1 spec.rows s = x, compileRows spec 1 spec.rows t = y at hrows
    cases hrows with
    | error e hafter => exact .error e hafter
    | ok hrows hafter => exact .ok (by rw [blank, blank, hrows]) hafter

end Indistinct

/-- What is said about each of the utilities that are compiled one after the other, accepted or not. -/
def verdicts [Resolver σ] : List UtilitySpec → σ → List (Except Model.Error Unit)
  | [], _ => []
  | spec :: rest, s => (compile spec s).1.map (fun _ => ()) :: verdicts rest (compile spec s).2

theorem verdicts_indistinct [Resolver σ] {P : String → Prop} {R : σ → σ → Prop} (hR : Indistinct P R)
    {specs : List UtilitySpec} {s t : σ}
    (hspecs : ∀ spec ∈ specs, ∀ text ∈ specTexts spec, ∀ name ∈ readNames text, P name) (hst : R s t) :
    verdicts specs s = verdicts specs t := by
  induction specs generalizing s t with
  | nil => rfl
  | cons spec specs ih =>
    obtain ⟨hspec, hrest⟩ := List.forall_mem_cons.mp hspecs
    have hfirst := compile_indistinct hR hspec hst
    rw [verdicts, verdicts]
    generalize compile spec s = x, compile spec t = y at hfirst
    cases hfirst with
    | error e hafter => rw [ih hrest hafter]
    | ok _ hafter =>
      rw [ih hrest hafter]
      rfl

/-- The check of a model reports the utilities that are not accepted. -/
theorem utilityErrors_eq (specs : List UtilitySpec) (v : Variables Unit) :
    Model.utilityErrors specs v = (verdicts specs v).filterMap fun
      | .ok () => none
      | .error e => some e := by
  induction specs generalizing v with
  | nil => rfl
  | cons spec specs ih =>
    rw [Model.utilityErrors, verdicts]
    rcases compile spec v with ⟨r, w⟩
    cases r with
    | ok u => exact ih w
    | error e => exact congrArg (e :: ·) (ih w)

/-- A rejected utility leaves behind the names that are assigned in front of what is at fault and that
meant nothing. Where there are none, the data are as they were. In any case the utilities that read none
of them are accepted or rejected as if it were absent. -/
theorem compile_rejected {spec : UtilitySpec} {v w : Variables ο} {e : Model.Error}
    (h : compile spec v = (.error e, w)) :
    ∃ passed rest u, specTexts spec = passed ++ rest ∧ Passes passed v u ∧
      (w = u ∨ ∃ text ∈ rest.head?, ∃ cause, ofText? text u = (.error cause, w)) ∧
      v.Learns (v.newNames passed) w ∧ (w.stores = v.stores ↔ v.newNames passed = []) ∧
      ∀ later : List UtilitySpec,
        (∀ other ∈ later, ∀ text ∈ specTexts other, ∀ name ∈ readNames text, name ∉ v.newNames passed) →
          verdicts (spec :: later) v = .error e :: verdicts later v := by
  obtain ⟨passed, rest, u, htexts, hpassed, hstop⟩ : Stops (specTexts spec) v w := by
    have htries := compile_tries spec v
    rw [h] at htries
    cases htries with
    | stopped _ hstop => exact hstop
  have hlearns : v.Learns (v.newNames passed) w := by
    have hu := hpassed.learns
    rcases hstop with rfl | ⟨text, -, cause, hfailed⟩
    · exact hu
    · have hw := hu.trans (Variables.learns_of_error hfailed)
      rwa [List.append_nil] at hw
  refine ⟨passed, rest, u, htexts, hpassed, hstop, hlearns, hlearns.stores_eq_iff, fun later hlater => ?_⟩
  rw [verdicts, h, verdicts_indistinct (Variables.indistinct_ahead _) hlater hlearns.ahead]
  rfl

/-- A utility with a filter that assigns the name `time`. -/
def assigning : UtilitySpec := ⟨"first", ["walk"], [{ filter := some "time = $alt", text := "" }]⟩

theorem checkTarget_time : checkTarget "time" = .ok () := by
  have hreserved : (Opcode.ofName? "time").isSome = false := by cbv
  have hstart : ("time".toList.head?.any isNameStart) = true := by cbv
  have hparts : ("time".toList.any fun c => isDelimiter c || isBracket c) = false := by cbv
  simp only [checkTarget, hreserved, hstart, hparts]
  rfl

theorem compile_assigning : compile assigning ({} : Variables Unit) =
    (.error (.invalid (.assigningFilter "first" 1)),
      { scalars := ⟨#[("time", 0.0)]⟩
        bindings := #[⟨"$alt", .loop .alternative⟩, ⟨"time", .scalar 0⟩] }) := by
  generalize hu : ({ bindings := #[⟨"$alt", .loop .alternative⟩] } : Variables Unit) = u
  have hvalue : compileValue " $alt".toList ({} : Variables Unit) =
      (.ok ⟨#[⟨.load 0, 0, some "$alt"⟩]⟩, u) := by
    subst hu
    cbv
  have hassign : Variables.resolveAssign "time" u = (some 1,
      { scalars := ⟨#[("time", 0.0)]⟩
        bindings := #[⟨"$alt", .loop .alternative⟩, ⟨"time", .scalar 0⟩] }) := by
    subst hu
    exact Variables.resolveAssign_of_free (by cbv) (by cbv) (by cbv) (by cbv)
  have hsplit : splitAssignment none "time = $alt".toList = some ("time ".toList, " $alt".toList) := by
    cbv
  have hname : String.ofList (Text.trim "time ".toList) = "time" := by cbv
  have htext := (compile_eq_ok_iff_of_split (c := ⟨_, some 1⟩) hsplit).mpr
    ⟨u, 1, hvalue, hname ▸ checkTarget_time, hname ▸ hassign, rfl⟩
  have htrim : String.ofList (Text.trim "time = $alt".toList) = "time = $alt" := by cbv
  have hfilter := Expression.ofText?_eq_ok_iff.mpr ⟨_, htext, rfl⟩
  unfold compile assigning compileRows compileRow compileFilter
  simp only [Option.getD_some, htrim, hfilter]
  rfl

/-- The utility is refused, and the name `time` that it leaves behind is not read. -/
theorem compile_rejected_time : ∃ (other : UtilitySpec) (e : Model.Error) (w : Variables Unit),
    specTexts other = ["$alt"] ∧ compile assigning {} = (.error e, w) ∧
    w.scalars.indexOf? "time" = some 0 ∧
    verdicts [assigning, other] ({} : Variables Unit) =
      .error e :: verdicts [other] ({} : Variables Unit) := by
  -- The value is never looked at.
  generalize (1.0 : Float) = x
  generalize hother : (⟨"second", ["walk"], [{ text := "$alt", coefficients := [x] }]⟩ :
    UtilitySpec) = other
  have htexts : specTexts other = ["$alt"] := by
    subst hother
    cbv
  have hread : readNames "$alt" = ["$alt"] := by cbv
  have hmeaning : ({} : Variables Unit).meaning? "$alt" false = some (.loop .alternative) := by cbv
  obtain ⟨passed, -, -, -, -, -, -, -, hlater⟩ := compile_rejected compile_assigning
  refine ⟨other, _, _, htexts, compile_assigning, by simp [Scalars.indexOf?], hlater [other] ?_⟩
  simp only [List.mem_singleton, forall_eq, htexts, hread]
  intro hmem
  cases hmeaning.symm.trans (Variables.meaning?_of_mem_newNames hmem)

/-- The name `time` is there afterwards, and a utility that reads it is not reported. -/
theorem not_unchanged_of_rejected :
    (¬ ∀ (v w : Variables Unit) (spec : UtilitySpec) (e : Model.Error),
      compile spec v = (.error e, w) → w.stores = v.stores) ∧
    ¬ ∀ (v w : Variables Unit) (spec : UtilitySpec) (e : Model.Error) (later : List UtilitySpec),
      compile spec v = (.error e, w) →
        Model.utilityErrors (spec :: later) v = e :: Model.utilityErrors later v := by
  constructor
  · intro h
    have hsize := congrArg (fun v : Variables Unit => v.scalars.size) (h _ _ _ _ compile_assigning)
    cases hsize
  · intro h
    -- The values are never looked at.
    generalize (1.0 : Float) = x, hzero : (0.0 : Float) = zero
    generalize hreading : (⟨"second", ["walk"], [{ text := "time", coefficients := [x] }]⟩ :
      UtilitySpec) = reading
    have hreported := h _ _ _ _ [reading] compile_assigning
    rw [utilityErrors_eq, utilityErrors_eq, verdicts, compile_assigning, hzero] at hreported
    have hbefore : verdicts [reading] ({} : Variables Unit) =
        [.error (.compile "time" (.unknownVariable "time" 0))] := by
      subst hreading
      cbv
    have hafter : verdicts [reading] ({
        scalars := ⟨#[("time", zero)]⟩
        bindings := #[⟨"$alt", .loop .alternative⟩, ⟨"time", .scalar 0⟩] } : Variables Unit) =
        [.ok ()] := by
      subst hreading
      cbv
    rw [hbefore, hafter] at hreported
    cases hreported

end Utility

end ChoiceModel
