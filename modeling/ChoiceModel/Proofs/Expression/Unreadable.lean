import ChoiceModel.Proofs.Expression.Assignment

/-! Values that no meaning of their names can save. Whatever is put in front of such a value to make an
assignment of it, a name or not, the assignment fails too: a single `=` that is left in the value of an
assignment stays single through every step of the expansion, and no program has one. -/

namespace ChoiceModel.Expression

open Text Store

/-- A value that fails before any name in it is resolved. -/
def Unreadable (text : String) : Prop := ∃ cause, valueLexemes text.toList = .error cause

section Infix

variable {α : Type} {mid left right : List α} {c : α}

/-- A part of a list without the element `c` is on one side of it. -/
theorem infix_of_infix_cons (hc : c ∉ mid) (h : mid <:+: left ++ c :: right) :
    mid <:+: left ∨ mid <:+: right := by
  have hhead : mid <+: c :: right → mid = [] := by
    intro hprefix
    rcases List.prefix_cons_iff.mp hprefix with hnil | ⟨rest, rfl, -⟩
    · exact hnil
    · exact absurd List.mem_cons_self hc
  induction left with
  | nil =>
    rcases List.infix_cons_iff.mp h with hprefix | hinfix
    · rw [hhead hprefix]
      exact .inl List.nil_infix
    · exact .inr hinfix
  | cons x left ih =>
    rcases List.infix_cons_iff.mp h with hprefix | hinfix
    · refine .inl (List.IsPrefix.isInfix ?_)
      have hfront := List.prefix_append (x :: left) (c :: right)
      rcases List.prefix_or_prefix_of_prefix hprefix hfront with hshort | ⟨rest, rfl⟩
      · exact hshort
      · cases rest with
        | nil => exact List.append_nil _ ▸ List.prefix_rfl
        | cons d rest =>
          have htail := (List.prefix_append_right_inj _).mp hprefix
          obtain rfl : d = c := (List.cons_prefix_cons.mp htail).1
          exact absurd (List.mem_append_right _ List.mem_cons_self) hc
    · exact (ih hinfix).imp List.infix_cons id

end Infix

/-- The text has a `=` with blanks around it. -/
def Spaced (cs : List Char) : Prop := [' ', '=', ' '] <:+: cs

theorem Spaced.mem {cs : List Char} (h : Spaced cs) : '=' ∈ cs := h.subset (by simp)

/-- No step of the expansion touches a `=` with blanks around it. -/
theorem Expands.spaced {cs ds : List Char} (h : Expands cs ds) (hcs : Spaced cs) : Spaced ds := by
  obtain ⟨before, name, sub, after, rfl, rfl, hname, -⟩ := h.exists_subscript
  have hmark : ∀ c, c ≠ ' ' → c ≠ '=' → c ∉ [' ', '=', ' '] := fun c hblank hassign => by
    simp [hblank, hassign]
  have hparts : Spaced (before ++ name) ∨ Spaced sub ∨ Spaced after :=
    (infix_of_infix_cons (hmark '[' (by decide) (by decide)) hcs).imp_right
      (infix_of_infix_cons (hmark ']' (by decide) (by decide)))
  have hbefore : Spaced (before ++ name) → Spaced before := by
    intro hfront
    cases name with
    | nil => rwa [List.append_nil] at hfront
    | cons c name =>
      have hc : c ∉ [' ', '=', ' '] := by
        refine hmark c ?_ ?_ <;> rintro rfl <;> cases hname _ List.mem_cons_self
      refine (infix_of_infix_cons hc hfront).resolve_right fun hspaced => ?_
      cases hname '=' (List.mem_cons_of_mem c (Spaced.mem hspaced))
  rcases hparts with hfront | ⟨front, back, rfl⟩ | ⟨front, back, rfl⟩
  · obtain ⟨front, back, rfl⟩ := hbefore hfront
    exact ⟨front, back ++ ("ARRAY(".toList ++ name ++ ',' :: sub ++ ')' :: after), by simp [lookupCall]⟩
  · exact ⟨before ++ "ARRAY(".toList ++ name ++ ',' :: front, back ++ ')' :: after, by simp [lookupCall]⟩
  · exact ⟨before ++ "ARRAY(".toList ++ name ++ ',' :: sub ++ ')' :: front, back, by simp [lookupCall]⟩

theorem Spaced.expandSubscripts {cs expanded : List Char} (h : Spaced cs)
    (hexpanded : expandSubscripts cs = .ok expanded) : Spaced expanded := by
  obtain ⟨hsteps, -⟩ := expandSubscripts_eq_ok_iff_steps.mp hexpanded
  clear hexpanded
  induction hsteps with
  | refl => exact h
  | tail _ hstep ih => exact hstep.spaced ih

/-- A `=` with blanks around it is scanned as the mark of an assignment. -/
theorem Scans.exists_assign {position : Nat} {previous : Option Char} {front back : List Char}
    {lexed : Scan} (h : Scans position previous (front ++ ' ' :: '=' :: ' ' :: back) lexed) :
    ∃ l ∈ lexed.lexemes, l.token = .symbol .assign := by
  generalize hcs : front ++ ' ' :: '=' :: ' ' :: back = cs at h
  induction h generalizing front with
  | nil => cases front <;> cases hcs
  | blank _ h ih =>
    cases front with
    | nil =>
      obtain ⟨-, rfl⟩ := List.cons.inj hcs
      cases h with
      | blank hblank => cases hblank
      | lexeme _ hcut _ =>
        cases hcut
        exact ⟨_, List.mem_cons_self, rfl⟩
    | cons c front => exact ih (List.cons.inj hcs).2
  | @lexeme _ _ _ _ k _ hblank hcut _ ih =>
    have hnot : ' ' ∉ k.text := fun hmem => by
      cases isBlank_of_mem_text hblank hcut hmem
    obtain ⟨front', -, hrest⟩ := exists_of_append_eq hnot ((cut_append hcut).trans hcs.symm)
    obtain ⟨l, hmem, hl⟩ := ih hrest.symm
    exact ⟨l, List.mem_cons_of_mem _ hmem, hl⟩

section Compile

variable {σ : Type} [Resolver σ] {s s' : σ}

/-- No program has a mark of assignment in it. -/
theorem ne_assign_of_run {stop : Nat} {previous : Option Token} {ls : List Lexeme} {b : Builder}
    {p : Program} (h : run stop previous ls b s = (.ok p, s')) :
    ∀ l ∈ ls, l.token ≠ .symbol .assign := by
  induction ls generalizing previous b s with
  | nil => exact fun _ hmem => nomatch hmem
  | cons l ls ih =>
    rw [run] at h
    split at h
    · rename_i hstep
      intro l' hmem htoken
      rcases List.mem_cons.mp hmem with rfl | hmem
      · rw [step, htoken] at hstep
        cases hstep
      · exact ih h l' hmem htoken
    · cases h

theorem not_spaced_of_compileValue {cs : List Char} {p : Program}
    (h : compileValue cs s = (.ok p, s')) : ¬ Spaced cs := by
  intro hspaced
  obtain ⟨lexed, hlexed, hrun⟩ := compileValue_eq_ok_iff.mp h
  obtain ⟨-, expanded, hexpanded, -, hscan⟩ := valueLexemes_eq_ok_iff.mp hlexed
  obtain ⟨front, back, rfl⟩ := hspaced.expandSubscripts hexpanded
  rw [scan, List.append_assoc] at hscan
  obtain ⟨l, hmem, hl⟩ := (Scans.of_scanFrom hscan).exists_assign
  exact ne_assign_of_run hrun l hmem hl

theorem exists_valueLexemes_of_blank {cs : List Char} {lexed : Scan}
    (h : valueLexemes (' ' :: cs) = .ok lexed) : ∃ moved, valueLexemes cs = .ok moved := by
  obtain ⟨hwhite, expanded, hexpanded, hbalance, hscan⟩ := valueLexemes_eq_ok_iff.mp h
  obtain ⟨rest, hrest, rfl⟩ := expandSubscripts_blank hexpanded
  obtain ⟨moved, hmoved, -⟩ := scan_blank hscan
  rw [checkBalance_eq_ok_iff] at hbalance
  refine ⟨moved, valueLexemes_eq_ok_iff.mpr ⟨?_, rest, hrest, ?_, hmoved⟩⟩
  · rw [List.all_cons, Bool.and_eq_false_iff] at hwhite
    exact hwhite.resolve_left (by decide)
  · rw [checkBalance_eq_ok_iff]
    exact hbalance

/-- Whatever is put in front of a value to make an assignment of it, the value can be read if that
compiles. -/
theorem not_unreadable_of_compile {name text : String} {c : Compiled}
    (h : compile (name ++ " = " ++ text) s = (.ok c, s')) : ¬ Unreadable text := by
  have htext : (name ++ " = " ++ text).toList =
      (name.toList ++ [' ']) ++ '=' :: ' ' :: text.toList := by simp
  have hlast : (name.toList ++ [' ']).getLast? = some '=' →
      ('=' :: ' ' :: text.toList).head?.any isRelational = false := by
    rw [List.getLast?_concat]
    nofun
  have hmark : splitAssignment (some ' ') ('=' :: ' ' :: text.toList) =
      some ([], ' ' :: text.toList) := by
    simp [splitAssignment, isRelational]
  have hsplit := splitAssignment_append (p := none) hlast
  rw [List.getLast?_concat, Option.some_or, hmark] at hsplit
  rintro ⟨cause, hcause⟩
  cases hname : splitAssignment none (name.toList ++ [' ']) with
  | none =>
    rw [hname, ← htext] at hsplit
    obtain ⟨_, _, hvalue, -⟩ := (compile_eq_ok_iff_of_split hsplit).mp h
    obtain ⟨lexed, hlexed, -⟩ := compileValue_eq_ok_iff.mp hvalue
    obtain ⟨moved, hmoved⟩ := exists_valueLexemes_of_blank hlexed
    cases hcause.symm.trans hmoved
  | some parts =>
    -- the name is split itself, so the value has the `=` behind the name in it
    obtain ⟨target, value⟩ := parts
    rw [hname, ← htext] at hsplit
    obtain ⟨_, _, hvalue, -⟩ := (compile_eq_ok_iff_of_split hsplit).mp h
    refine not_spaced_of_compileValue hvalue ?_
    have hfront := splitAssignment_eq_some hname
    rcases List.eq_nil_or_concat value with rfl | ⟨value, d, rfl⟩
    · cases (List.append_inj' hfront rfl).2
    · rw [List.concat_eq_append, ← List.cons_append, ← List.append_assoc] at hfront
      cases (List.append_inj' hfront rfl).2
      exact ⟨value, text.toList, by simp⟩

end Compile

end ChoiceModel.Expression
