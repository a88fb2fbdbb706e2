import ChoiceModel.Expression.Compile
import Mathlib.Data.List.TakeWhile

/-! What a text has gone through when it compiles. It has been split at its `=`, its value has been
expanded, checked, scanned and run, and only then its target has been checked and resolved. -/

namespace ChoiceModel.Expression

open Text Store

theorem getLast?_cons_or {α : Type*} (a : α) (front : List α) (p : Option α) :
    (a :: front).getLast?.or p = front.getLast?.or (some a) := by
  rw [List.getLast?_cons]
  cases front.getLast? with
  | none => rfl
  | some b => rfl

theorem mem_trim {c : Char} {cs : List Char} (hc : c ∈ cs) (hwhite : isWhite c = false) :
    c ∈ trim cs := by
  have hdrop : ∀ {cs : List Char}, c ∈ cs → c ∈ cs.dropWhile isWhite := by
    intro cs hc
    rw [← List.takeWhile_append_dropWhile (p := isWhite) (l := cs), List.mem_append] at hc
    refine hc.resolve_left fun htake => ?_
    rw [List.mem_takeWhile_imp htake] at hwhite
    cases hwhite
  exact List.mem_reverse.mpr (hdrop (List.mem_reverse.mpr (hdrop hc)))

/-- The target of an assignment is a name with nothing around it but white space. -/
theorem isNamePart_of_checkTarget {cs : List Char}
    (h : checkTarget (String.ofList (trim cs)) = .ok ()) {c : Char} (hc : c ∈ cs)
    (hwhite : isWhite c = false) : isNamePart c = true := by
  rw [checkTarget, String.toList_ofList] at h
  split at h
  · cases h
  · rename_i hname
    rw [Bool.or_eq_true, not_or, Bool.not_eq_true (List.any _ _), List.any_eq_false] at hname
    have hpart := hname.2 c (mem_trim hc hwhite)
    simpa [isNamePart] using hpart

section Split

variable {p q : Option Char} {front rest : List Char}

theorem splitAssignment_congr (h : p.any isRelational = q.any isRelational)
    (cs : List Char) : splitAssignment p cs = splitAssignment q cs := by
  cases cs with
  | nil => rfl
  | cons c cs => rw [splitAssignment, splitAssignment, h]

theorem splitAssignment_eq_none (h : ∀ c ∈ front, c ≠ '=') : splitAssignment p front = none := by
  induction front generalizing p with
  | nil => rfl
  | cons c front ih =>
    have hc := beq_eq_false_iff_ne.mpr (h c List.mem_cons_self)
    rw [splitAssignment, hc, Bool.false_and, Bool.false_and, if_neg Bool.false_ne_true,
      ih fun d hd => h d (List.mem_cons_of_mem c hd)]
    rfl

/-- A text is split in its first part, or else in its second, if no `=` meets a comparison between
them. -/
theorem splitAssignment_append
    (h : front.getLast? = some '=' → rest.head?.any isRelational = false) :
    splitAssignment p (front ++ rest) =
      ((splitAssignment p front).map fun parts => (parts.1, parts.2 ++ rest)).or
        ((splitAssignment (front.getLast?.or p) rest).map fun parts =>
          (front ++ parts.1, parts.2)) := by
  induction front generalizing p with
  | nil => exact (congrFun Option.map_id _).symm
  | cons c front ih =>
    have hnext : (c == '=' && !p.any isRelational && !(front ++ rest).head?.any isRelational) =
        (c == '=' && !p.any isRelational && !front.head?.any isRelational) := by
      cases front with
      | cons d front => rfl
      | nil =>
        by_cases hc : c = '='
        · rw [List.nil_append, h (congrArg some hc)]
          rfl
        · rw [beq_eq_false_iff_ne.mpr hc]
          rfl
    have hih := ih (p := some c) fun hfront => h (by rw [List.getLast?_cons, hfront]; rfl)
    rw [List.cons_append, splitAssignment, splitAssignment, hnext, getLast?_cons_or, hih]
    split
    · rfl
    · cases splitAssignment (some c) front with
      | some parts => rfl
      | none =>
        cases splitAssignment (front.getLast?.or (some c)) rest with
        | some parts => rfl
        | none => rfl

theorem splitAssignment_eq_some {target value : List Char}
    (h : splitAssignment p rest = some (target, value)) : rest = target ++ '=' :: value := by
  induction rest generalizing p target with
  | nil => cases h
  | cons c rest ih =>
    rw [splitAssignment] at h
    split at h
    · rename_i hc
      cases h
      simp only [Bool.and_eq_true, beq_iff_eq] at hc
      rw [hc.1.1, List.nil_append]
    · rw [Option.map_eq_some_iff] at h
      obtain ⟨⟨front, _⟩, hrest, hparts⟩ := h
      cases hparts
      rw [ih hrest, List.cons_append]

end Split

section Compile

variable {σ : Type} [Resolver σ] {s s' : σ}

theorem valueLexemes_eq_ok_iff {cs : List Char} {lexed : Scan} :
    valueLexemes cs = .ok lexed ↔ cs.all isWhite = false ∧
      ∃ expanded, expandSubscripts cs = .ok expanded ∧ checkBalance expanded = .ok () ∧
        scan expanded = .ok lexed := by
  rw [valueLexemes]
  split
  · rename_i hblank
    simp [hblank]
  · rename_i hblank
    rw [eq_false_of_ne_true hblank]
    split
    · rename_i hexpanded
      simp [hexpanded]
    · rename_i expanded hexpanded
      split
      · rename_i hbalance
        simp [hexpanded, hbalance]
      · rename_i hbalance
        simp [hexpanded, hbalance]

theorem compileValue_eq_ok_iff {cs : List Char} {p : Program} :
    compileValue cs s = (.ok p, s') ↔
      ∃ lexed, valueLexemes cs = .ok lexed ∧ run lexed.stop none lexed.lexemes {} s = (.ok p, s') := by
  rw [compileValue]
  split
  · rename_i hlexed
    simp [hlexed]
  · rename_i lexed hlexed
    simp [hlexed]

variable {text : String} {c : Compiled}

theorem compile_eq_ok_iff_of_not_split (h : splitAssignment none text.toList = none) :
    compile text s = (.ok c, s') ↔
      compileValue text.toList s = (.ok c.program, s') ∧ c.target = none := by
  rw [compile, h]
  constructor
  · intro h
    dsimp only at h
    split at h
    · rename_i program s₁ hvalue
      cases h
      exact ⟨hvalue, rfl⟩
    · cases h
  · rintro ⟨hvalue, htarget⟩
    obtain ⟨program, target⟩ := c
    cases htarget
    simp only [hvalue]

theorem compile_eq_ok_iff_of_split {target value : List Char}
    (h : splitAssignment none text.toList = some (target, value)) :
    compile text s = (.ok c, s') ↔ ∃ s₁ i, compileValue value s = (.ok c.program, s₁) ∧
      checkTarget (String.ofList (trim target)) = .ok () ∧
      Resolver.resolveAssign (String.ofList (trim target)) s₁ = (some i, s') ∧
      c.target = some i := by
  rw [compile, h]
  constructor
  · intro h
    dsimp only at h
    split at h
    · cases h
    · rename_i program s₁ hvalue
      split at h
      · cases h
      · rename_i hcheck
        split at h
        · rename_i i s₂ hassign
          cases h
          exact ⟨s₁, i, hvalue, hcheck, hassign, rfl⟩
        · cases h
  · rintro ⟨s₁, i, hvalue, hcheck, hassign, htarget⟩
    obtain ⟨program, target⟩ := c
    cases htarget
    simp only [hvalue, hcheck, hassign]

end Compile

end ChoiceModel.Expression
