import ChoiceModel.Proofs.Expression.Assignment
import ChoiceModel.Store.DataTable

/-! A subscript and the call that it stands for, in the same surroundings: both texts expand to one
text, and compile to one program with one target. -/

namespace ChoiceModel.Expression

open Text Store Marks

theorem isRelational_of_isNamePart {c : Char} (h : isNamePart c = true) : isRelational c = false := by
  refine eq_false_of_ne_true fun hc => ?_
  simp only [isRelational, Bool.or_eq_true, beq_iff_eq] at hc
  rcases hc with ((rfl | rfl) | rfl) | rfl
  all_goals cases h

section Split

variable {p : Option Char} {front sub post : List Char} {x y : Char}

theorem splitAssignment_behind (hfront : ∀ c ∈ front ++ [x], isRelational c = false)
    (rest : List Char) :
    splitAssignment p (front ++ x :: rest) =
      (splitAssignment none rest).map fun parts => (front ++ x :: parts.1, parts.2) := by
  have hne : ∀ c ∈ front ++ [x], c ≠ '=' := by
    rintro c hc rfl
    cases hfront '=' hc
  have hx : x ∈ front ++ [x] := by simp
  have hlast : (front ++ [x]).getLast? = some '=' → rest.head?.any isRelational = false := by
    rw [List.getLast?_concat]
    exact fun heq => absurd (Option.some.inj heq) (hne x hx)
  have hmark : (some x).any isRelational = none.any isRelational := hfront x hx
  rw [List.append_cons, splitAssignment_append hlast, splitAssignment_eq_none hne,
    List.getLast?_concat, Option.some_or, splitAssignment_congr hmark, Option.map_none,
    Option.none_or]
  simp only [← List.append_cons]

/-- Where a text is split that encloses another one between two marks. -/
theorem splitAssignment_enclosed (hfront : ∀ c ∈ front ++ [x], isRelational c = false)
    (hy : isRelational y = false) :
    splitAssignment p (front ++ x :: (sub ++ y :: post)) =
      ((splitAssignment none sub).map fun parts => (front ++ x :: parts.1, parts.2 ++ y :: post)).or
        ((splitAssignment none post).map fun parts =>
          (front ++ x :: (sub ++ y :: parts.1), parts.2)) := by
  have hmark : ∀ c ∈ [] ++ [y], isRelational c = false := by
    intro c hc
    rw [List.mem_singleton.mp hc]
    exact hy
  have hclose : ∀ q, splitAssignment q (y :: post) =
      (splitAssignment none post).map fun parts => ([] ++ y :: parts.1, parts.2) := fun q =>
    splitAssignment_behind hmark post
  have hhead : sub.getLast? = some '=' → (y :: post).head?.any isRelational = false := fun _ => hy
  rw [splitAssignment_behind hfront, splitAssignment_append hhead, hclose, Option.map_or,
    Option.map_map, Option.map_map, Option.map_map]
  rfl

end Split

section Compile

variable {pre name sub post : List Char}

theorem valueLexemes_subscript (hpre : EndsName pre) (hname : IsName name)
    (hsub : brackets.Balance sub) {lexed : Scan} :
    valueLexemes (pre ++ (name ++ '[' :: (sub ++ ']' :: post))) = .ok lexed ↔
      valueLexemes (pre ++ ("ARRAY(".toList ++ name ++ ',' :: (sub ++ ')' :: post))) =
        .ok lexed := by
  have hnonblank : ∀ {cs : List Char} {c : Char}, c ∈ cs → isWhite c = false →
      cs.all isWhite = false := fun hc hwhite =>
    List.all_eq_false.mpr ⟨_, hc, ne_true_of_eq_false hwhite⟩
  have hsubscript : (pre ++ (name ++ '[' :: (sub ++ ']' :: post))).all isWhite = false :=
    hnonblank (c := '[') (by simp) (by decide)
  have hcall : (pre ++ ("ARRAY(".toList ++ (name ++ ',' :: (sub ++ ')' :: post)))).all isWhite =
      false := hnonblank (c := ',') (by simp) (by decide)
  have hexpand := expandSubscripts_subscript hpre hname hsub post
  simp only [lookupCall_eq, List.append_assoc] at hexpand
  simp only [valueLexemes_eq_ok_iff, hsubscript, hcall, List.append_assoc, hexpand]

variable {σ : Type} [Resolver σ] {s s' : σ}

theorem compile_ne_ok {text : String} {target value : List Char} {c : Char}
    (h : splitAssignment none text.toList = some (target, value)) (hc : c ∈ target)
    (hpart : isNamePart c = false) (hwhite : isWhite c = false) {compiled : Compiled} :
    compile text s ≠ (.ok compiled, s') := by
  intro hcompile
  obtain ⟨-, -, -, hcheck, -⟩ := (compile_eq_ok_iff_of_split h).mp hcompile
  rw [isNamePart_of_checkTarget hcheck hc hwhite] at hpart
  cases hpart

/-- A text with a mark in it is an assignment only if it is split in front of the mark. -/
theorem compile_enclosed_eq_ok_iff {text : String} {front : List Char} {x y : Char} {c : Compiled}
    (htext : text.toList = pre ++ (front ++ x :: (sub ++ y :: post)))
    (hfront : ∀ c ∈ front ++ [x], isRelational c = false) (hy : isRelational y = false)
    (hpart : isNamePart x = false) (hwhite : isWhite x = false) :
    compile text s = (.ok c, s') ↔
      match splitAssignment none pre with
      | some (target, value) => ∃ s₁ i,
        compileValue (value ++ (front ++ x :: (sub ++ y :: post))) s = (.ok c.program, s₁) ∧
          checkTarget (String.ofList (trim target)) = .ok () ∧
          Resolver.resolveAssign (String.ofList (trim target)) s₁ = (some i, s') ∧ c.target = some i
      | none => splitAssignment none sub = none ∧ splitAssignment none post = none ∧
        compileValue text.toList s = (.ok c.program, s') ∧ c.target = none := by
  have hhead : pre.getLast? = some '=' →
      (front ++ x :: (sub ++ y :: post)).head?.any isRelational = false := by
    intro _
    cases front with
    | nil => exact hfront x List.mem_cons_self
    | cons c front => exact hfront c List.mem_cons_self
  have hsplit := splitAssignment_append (p := none) hhead
  rw [← htext, splitAssignment_enclosed hfront hy] at hsplit
  cases hpre : splitAssignment none pre with
  | some parts =>
    rw [hpre] at hsplit
    exact compile_eq_ok_iff_of_split hsplit
  | none =>
    rw [hpre] at hsplit
    cases hsub : splitAssignment none sub with
    | some parts =>
      rw [hsub] at hsplit
      exact iff_of_false (compile_ne_ok hsplit (by simp) hpart hwhite) nofun
    | none =>
      rw [hsub] at hsplit
      cases hpost : splitAssignment none post with
      | some parts =>
        rw [hpost] at hsplit
        exact iff_of_false (compile_ne_ok hsplit (by simp) hpart hwhite) nofun
      | none =>
        rw [hpost] at hsplit
        simp only [compile_eq_ok_iff_of_not_split hsplit, true_and]

theorem compileValue_subscript (hpre : EndsName pre) (hname : IsName name)
    (hsub : brackets.Balance sub) {p : Program} :
    compileValue (pre ++ (name ++ '[' :: (sub ++ ']' :: post))) s = (.ok p, s') ↔
      compileValue (pre ++ ("ARRAY(".toList ++ name ++ ',' :: (sub ++ ')' :: post))) s =
        (.ok p, s') := by
  simp only [compileValue_eq_ok_iff, valueLexemes_subscript hpre hname hsub]

theorem compile_subscript (hpre : EndsName pre) (hname : IsName name) (hsub : brackets.Balance sub)
    {c : Compiled} :
    compile (String.ofList (pre ++ name ++ '[' :: (sub ++ ']' :: post))) s = (.ok c, s') ↔
      compile (String.ofList (lookupCall pre name sub post)) s = (.ok c, s') := by
  have hsubscript : (String.ofList (pre ++ name ++ '[' :: (sub ++ ']' :: post))).toList =
      pre ++ (name ++ '[' :: (sub ++ ']' :: post)) := by
    rw [String.toList_ofList, List.append_assoc]
  have hcall : (String.ofList (lookupCall pre name sub post)).toList =
      pre ++ ("ARRAY(".toList ++ name ++ ',' :: (sub ++ ')' :: post)) := by
    rw [String.toList_ofList, lookupCall_eq, List.append_assoc, List.append_assoc, List.append_assoc]
  have hfront : ∀ c ∈ name ++ ['['], isRelational c = false := by
    intro c hc
    rcases List.mem_append.mp hc with hc | hc
    · exact isRelational_of_isNamePart (hname.part c hc)
    · rw [List.mem_singleton.mp hc]
      decide
  have hfunction : ∀ c ∈ "ARRAY(".toList ++ name ++ [','], isRelational c = false := by
    intro c hc
    rw [List.mem_append, List.mem_append] at hc
    rcases hc with (hc | hc) | hc
    · have hfunction : ∀ c ∈ "ARRAY(".toList, isRelational c = false := by simp [isRelational]
      exact hfunction c hc
    · exact isRelational_of_isNamePart (hname.part c hc)
    · rw [List.mem_singleton.mp hc]
      decide
  rw [compile_enclosed_eq_ok_iff hsubscript hfront (by decide) (by decide) (by decide),
    compile_enclosed_eq_ok_iff hcall hfunction (by decide) (by decide) (by decide), hsubscript, hcall]
  cases hsplit : splitAssignment none pre with
  | none => simp only [compileValue_subscript hpre hname hsub]
  | some parts =>
    rw [splitAssignment_eq_some hsplit, List.append_cons] at hpre
    simp only [compileValue_subscript hpre.of_append hname hsub]

/-- A subscript with balanced brackets is the call that it stands for, wherever it stands: both texts
expand to the same text and compile to the same program and target. The steps of the expansion come to
an end on every text, and what it leads to has no bracket and is expanded to itself. -/
theorem subscript_iff_call (hpre : EndsName pre) (hname : IsName name) (hsub : brackets.Balance sub)
    (post : List Char) :
    (∀ expanded, expandSubscripts (pre ++ name ++ '[' :: (sub ++ ']' :: post)) = .ok expanded ↔
        expandSubscripts (lookupCall pre name sub post) = .ok expanded) ∧
      (∀ (c : Compiled) (s s' : σ),
        compile (String.ofList (pre ++ name ++ '[' :: (sub ++ ']' :: post))) s = (.ok c, s') ↔
          compile (String.ofList (lookupCall pre name sub post)) s = (.ok c, s')) ∧
      (WellFounded fun ds cs => Expands cs ds) ∧
      (∀ cs expanded, expandSubscripts cs = .ok expanded ↔
        Relation.ReflTransGen Expands cs expanded ∧ ∀ c ∈ expanded, isBracket c = false) ∧
      ∀ cs expanded, expandSubscripts cs = .ok expanded → expandSubscripts expanded = .ok expanded := by
  refine ⟨expandSubscripts_subscript hpre hname hsub post, fun c s s' =>
    compile_subscript hpre hname hsub, Expands.wellFounded, fun cs expanded =>
    expandSubscripts_eq_ok_iff_steps, fun cs expanded h => ?_⟩
  exact expandSubscripts_eq_ok_iff_steps.mpr ⟨.refl, (expandSubscripts_eq_ok_iff_steps.mp h).2⟩

set_option maxRecDepth 20000 in
theorem subscript_iff_call_nested :
    (EndsName "2 * ".toList ∧ IsName "a".toList ∧ brackets.Balance "b[1] + 1".toList) ∧
      expandSubscripts "2 * a[b[1] + 1] + c[3]".toList =
        .ok "2 * ARRAY(a,ARRAY(b,1) + 1) + ARRAY(c,3)".toList ∧
      ∀ (c : Compiled) (s s' : DataTable),
        compile "2 * a[b[1] + 1] + c[3]" s = (.ok c, s') ↔
          compile "2 * ARRAY(a,b[1] + 1) + c[3]" s = (.ok c, s') := by
  have hpre : EndsName "2 * ".toList := EndsName.concat (x := ' ') (by decide) "2 *".toList
  have hname : IsName "a".toList := ⟨by decide, List.forall_mem_singleton.mpr (by decide)⟩
  have hsub : brackets.Balance "b[1] + 1".toList := by decide
  obtain ⟨hexpand, hcompile, -⟩ :=
    subscript_iff_call (σ := DataTable) hpre hname hsub " + c[3]".toList
  exact ⟨⟨hpre, hname, hsub⟩, (hexpand _).mpr (by cbv), hcompile⟩

end Compile

end ChoiceModel.Expression
