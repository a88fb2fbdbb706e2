import ChoiceModel.Proofs.Expression.Placement
import ChoiceModel.Proofs.Model.File

/-! Names of formulas as targets of assignments. A name that is accepted for a formula can be assigned to,
unless it is that of a function in letters of any case, or ends with white space that the check of names lets
through: a target is taken without it. -/

namespace ChoiceModel.Model

open Expression Store Text

section Name

variable {kind : NameKind} {name : String}

theorem isWhite_of_isAlpha {c : Char} (h : c.isAlpha = true) : isWhite c = false := by
  have hbounds := toNat_of_isAlpha h
  simp only [isWhite, Bool.or_eq_false_iff, Bool.and_eq_false_iff, decide_eq_false_iff_not,
    beq_eq_false_iff_ne]
  omega

/-- An accepted name is a target unless it is reserved. -/
theorem checkTarget_eq_ok_iff (h : checkName kind name = .ok ()) :
    checkTarget name = .ok () ↔ Opcode.ofName? name = none := by
  obtain ⟨halpha, hparts⟩ := checkName_eq_ok_iff.mp h
  have hstart : name.toList.head?.any isNameStart = true := by
    cases hhead : name.toList.head? with
    | none =>
      rw [hhead] at halpha
      cases halpha
    | some c =>
      rw [hhead] at halpha
      have hc : c.isAlpha = true := halpha
      rw [Option.any_some, isNameStart, hc, Bool.true_or, Bool.true_or]
  unfold checkTarget
  simp only
  rw [hstart, hparts]
  cases Opcode.ofName? name <;> simp

/-- White space is cut off a name only at its end. -/
theorem trim_eq_self_iff {c : Char} {cs : List Char} (hc : isWhite c = false) :
    trim (c :: cs) = c :: cs ↔ ∀ d ∈ (c :: cs).getLast?, isWhite d = false := by
  rw [trim, trimStart, List.dropWhile_cons_of_neg (ne_true_of_eq_false hc), trimEnd,
    List.reverse_eq_iff, ← List.head?_reverse]
  cases (c :: cs).reverse with
  | nil => simp
  | cons d ds =>
    cases hd : isWhite d with
    | false => simp [hd]
    | true =>
      have hlength := (List.dropWhile_sublist isWhite (l := ds)).length_le
      simp only [List.dropWhile_cons, hd, if_true, List.head?_cons, Option.mem_def, Option.some.injEq,
        forall_eq', Bool.true_eq_false, iff_false]
      intro heq
      rw [heq, List.length_cons] at hlength
      omega

theorem trim_of_checkName (h : checkName kind name = .ok ()) :
    trim name.toList = name.toList ↔ ∀ c ∈ name.toList.getLast?, isWhite c = false := by
  obtain ⟨halpha, -⟩ := checkName_eq_ok_iff.mp h
  cases hname : name.toList with
  | nil =>
    rw [hname] at halpha
    cases halpha
  | cons c cs =>
    rw [hname] at halpha
    exact trim_eq_self_iff (isWhite_of_isAlpha halpha)

end Name

theorem name?_allocate (t : Scalars) (name : String) :
    (t.allocate name).2.name? (t.allocate name).1 = some name := by
  obtain ⟨x, hx⟩ := Scalars.indexOf?_eq_some (t.indexOf?_allocate name)
  rw [Scalars.name?, hx]
  rfl

/-- A name that is accepted for a formula, in front of a value that compiles, is the name of the scalar that is
assigned to exactly when it is not reserved for a function and does not end with white space. -/
theorem assignable_iff {kind : NameKind} {name value : String} {s t : Scalars} {c : Compiled}
    (hname : checkName kind name = .ok ()) (hvalue : compile value s = (.ok c, t))
    (htarget : c.target = none) :
    (∃ c' t' i, compile (name ++ " = " ++ value) s = (.ok c', t') ∧ c'.target = some i ∧
      t'.name? i = some name) ↔
    Opcode.ofName? name = none ∧ ∀ ch ∈ name.toList.getLast?, isWhite ch = false := by
  have hdelimiter := checkName_eq_ok hname
  rw [← trim_of_checkName hname, ← checkTarget_eq_ok_iff hname]
  constructor
  · rintro ⟨c', t', i, hcompile, hc', hnamed⟩
    obtain ⟨s₁, j, -, hcheck, hassign, hj⟩ := (compile_assignment_eq_ok_iff hdelimiter).mp hcompile
    cases hc'.symm.trans hj
    -- the slot has the name that is left of the target, so nothing has been cut off
    obtain ⟨rfl, rfl⟩ : (s₁.allocate (String.ofList (trim name.toList))).1 = i ∧
        (s₁.allocate (String.ofList (trim name.toList))).2 = t' := by
      cases hassign
      exact ⟨rfl, rfl⟩
    rw [name?_allocate, Option.some.injEq] at hnamed
    rw [hnamed] at hcheck
    refine ⟨hcheck, ?_⟩
    rw [← String.toList_ofList (l := trim name.toList), hnamed]
  · rintro ⟨hcheck, htrim⟩
    have hplaced := compileValue_behind_blank (compileValue_of_compile hvalue htarget)
    have htrimmed : String.ofList (trim name.toList) = name := by
      rw [htrim, String.ofList_toList]
    refine ⟨⟨c.program, some (t.allocate name).1⟩, (t.allocate name).2, (t.allocate name).1,
      (compile_assignment_eq_ok_iff hdelimiter).mpr ⟨t, (t.allocate name).1, hplaced, ?_, ?_, rfl⟩,
      rfl, name?_allocate t name⟩
    · rw [htrimmed]
      exact hcheck
    · rw [htrimmed]
      rfl

/-- The number `1` is a value that compiles without any scalar. -/
theorem compile_one : ∃ c, compile "1" ({} : Scalars) = (.ok c, {}) ∧ c.target = none := by
  obtain ⟨x, hread⟩ : ∃ x, Decimal.read ['1'] = .ok x := ⟨_, rfl⟩
  have hcut : cut none '1' [] = .ok ⟨.number x, ['1'], []⟩ :=
    cut_eq_ok_iff.mpr (.number (.inr rfl) (cutNumber_eq_ok_iff.mpr ⟨x, hread, rfl⟩))
  have hscan : scan ['1'] = .ok ⟨[⟨.number x, 0⟩], 1⟩ :=
    (Scans.lexeme rfl hcut (.nil 1 _)).scanFrom_eq
  have hexpand : expandSubscripts ['1'] = .ok ['1'] :=
    expandSubscripts_eq_ok_iff_steps.mpr ⟨.refl, by simp [isBracket]⟩
  have hlexemes : valueLexemes ['1'] = .ok ⟨[⟨.number x, 0⟩], 1⟩ :=
    valueLexemes_eq_ok_iff.mpr ⟨by decide, _, hexpand, rfl, hscan⟩
  have hvalue : compileValue ['1'] ({} : Scalars) =
      (.ok ⟨#[⟨.literal x, 0, none⟩]⟩, {}) :=
    compileValue_eq_ok_iff.mpr ⟨_, hlexemes, rfl⟩
  exact ⟨⟨_, none⟩, (compile_eq_ok_iff_of_not_split (by decide)).mpr ⟨hvalue, rfl⟩, rfl⟩

theorem assignable_iff_total : ∃ c, checkName .formula "total" = .ok () ∧
    compile "1" ({} : Scalars) = (.ok c, {}) ∧ c.target = none ∧
    ∃ c' t' i, compile ("total" ++ " = " ++ "1") ({} : Scalars) = (.ok c', t') ∧ c'.target = some i ∧
      t'.name? i = some "total" := by
  obtain ⟨c, hcompile, htarget⟩ := compile_one
  have hname : checkName .formula "total" = .ok () := checkName_eq_ok_iff.mpr ⟨by decide, by decide⟩
  have hlast : ∀ ch ∈ "total".toList.getLast?, isWhite ch = false := by
    rintro ch ⟨⟩
    rfl
  exact ⟨c, hname, hcompile, htarget, (assignable_iff hname hcompile htarget).mpr ⟨by decide, hlast⟩⟩

/-- The name of a function is accepted for a formula and is no target. -/
theorem not_assignable_reserved : ¬ ∀ (name value : String) (c : Compiled) (t : Scalars),
    checkName .formula name = .ok () → compile value ({} : Scalars) = (.ok c, t) → c.target = none →
    ∃ c' t' i, compile (name ++ " = " ++ value) ({} : Scalars) = (.ok c', t') ∧ c'.target = some i ∧
      t'.name? i = some name := by
  intro h
  obtain ⟨c, hcompile, htarget⟩ := compile_one
  have hname : checkName .formula "max" = .ok () := checkName_eq_ok_iff.mpr ⟨by decide, by decide⟩
  obtain ⟨c', t', i, hassigned, -⟩ := h "max" "1" c {} hname hcompile htarget
  obtain ⟨s₁, j, -, hcheck, -⟩ := (compile_assignment_eq_ok_iff (checkName_eq_ok hname)).mp hassigned
  have htrim : trim "max".toList = "max".toList := rfl
  rw [htrim, String.ofList_toList, checkTarget_eq_ok_iff hname] at hcheck
  cases hcheck

end ChoiceModel.Model
