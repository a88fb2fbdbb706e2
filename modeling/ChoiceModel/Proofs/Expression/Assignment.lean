import ChoiceModel.Proofs.Expression.Loads
import ChoiceModel.Proofs.Expression.Resolving
import ChoiceModel.Proofs.Expression.Scanning
import ChoiceModel.Proofs.Expression.Subscripts

/-! Assignments of a value to a name. The blank in front of the value moves its lexemes and changes
none of them, so what an assignment reads are the names of its value alone. -/

namespace ChoiceModel.Expression

open Text Store

theorem trim_append_blank (cs : List Char) : trim (cs ++ [' ']) = trim cs := by
  have hend : ∀ xs, trimEnd (xs ++ [' ']) = trimEnd xs := by
    intro xs
    have hblank : isWhite ' ' = true := by decide
    rw [trimEnd, List.reverse_append, List.reverse_singleton, List.singleton_append,
      List.dropWhile_cons_of_pos hblank, trimEnd]
  have hstart : trimStart (cs ++ [' ']) =
      if (trimStart cs).isEmpty then [] else trimStart cs ++ [' '] := List.dropWhile_append
  rw [trim, hstart, trim]
  split
  · rename_i hempty
    rw [List.isEmpty_iff.mp hempty]
  · exact hend _

theorem ne_assign_of_not_isDelimiter {c : Char} (h : isDelimiter c = false) : c ≠ '=' := by
  rintro rfl
  exact absurd h (by decide)

theorem splitAssignment_name (name value : List Char) (hname : ∀ c ∈ name, isDelimiter c = false) :
    splitAssignment none (name ++ ' ' :: '=' :: ' ' :: value) =
      some (name ++ [' '], ' ' :: value) := by
  have hfront : splitAssignment none (name ++ [' ']) = none := by
    refine splitAssignment_eq_none fun c hc => ?_
    rcases List.mem_append.mp hc with hc | hc
    · exact ne_assign_of_not_isDelimiter (hname c hc)
    · rw [List.mem_singleton.mp hc]
      decide
  have hlast : (name ++ [' ']).getLast? = some '=' →
      ('=' :: ' ' :: value).head?.any isRelational = false := by
    rw [List.getLast?_concat]
    nofun
  rw [List.append_cons, splitAssignment_append hlast, hfront, List.getLast?_concat]
  simp [splitAssignment, isRelational]

/-- Where a text starts does not matter to its tokens. -/
theorem Scans.exists_moved {position : Nat} {previous : Option Char} {cs : List Char} {lexed : Scan}
    (h : Scans position previous cs lexed) (start : Nat) :
    ∃ moved, Scans start previous cs moved ∧
      moved.lexemes.map Lexeme.token = lexed.lexemes.map Lexeme.token := by
  induction h generalizing start with
  | nil position previous => exact ⟨_, .nil start previous, rfl⟩
  | blank hblank _ ih =>
    obtain ⟨moved, hmoved, htokens⟩ := ih _
    exact ⟨moved, .blank hblank hmoved, htokens⟩
  | @lexeme _ _ _ _ k _ hblank hcut _ ih =>
    obtain ⟨moved, hmoved, htokens⟩ := ih _
    exact ⟨_, .lexeme hblank hcut hmoved, congrArg (k.token :: ·) htokens⟩

theorem scan_blank {cs : List Char} {lexed : Scan} (h : scan (' ' :: cs) = .ok lexed) :
    ∃ moved, scan cs = .ok moved ∧
      moved.lexemes.map Lexeme.token = lexed.lexemes.map Lexeme.token := by
  rw [scan, scanFrom, if_pos (by decide)] at h
  obtain ⟨moved, hmoved, htokens⟩ := (Scans.of_scanFrom h).exists_moved 0
  exact ⟨moved, hmoved.scanFrom_eq, htokens⟩

theorem namesOf_eq_of_tokens {ls ms : List Lexeme}
    (h : ls.map Lexeme.token = ms.map Lexeme.token) : namesOf ls = namesOf ms := by
  have hmap : ∀ ls : List Lexeme,
      namesOf ls = (ls.map Lexeme.token).filterMap Token.variable? := by
    intro ls
    rw [List.filterMap_map]
    rfl
  rw [hmap, hmap, h]

theorem variableNames_of_valueLexemes {text : String} {lexed : Scan} {names : List String}
    (h : valueLexemes (' ' :: text.toList) = .ok lexed) (hnames : variableNames text = .ok names) :
    namesOf lexed.lexemes = names := by
  obtain ⟨-, expanded, hexpanded, -, hscan⟩ := valueLexemes_eq_ok_iff.mp h
  obtain ⟨rest, hrest, rfl⟩ := expandSubscripts_blank hexpanded
  obtain ⟨moved, hmoved, htokens⟩ := scan_blank hscan
  have htokenize : tokenize text = .ok moved := by
    rw [tokenize, hrest]
    exact hmoved
  rw [variableNames, htokenize] at hnames
  cases hnames
  exact (namesOf_eq_of_tokens htokens).symm

section Compile

variable {σ : Type} [Resolver σ] {text : String} {c : Compiled} {s s' : σ}

theorem compile_assignment_eq_ok_iff {name value : String}
    (hname : ∀ ch ∈ name.toList, isDelimiter ch = false) :
    compile (name ++ " = " ++ value) s = (.ok c, s') ↔ ∃ s₁ i,
      compileValue (' ' :: value.toList) s = (.ok c.program, s₁) ∧
      checkTarget (String.ofList (trim name.toList)) = .ok () ∧
      Resolver.resolveAssign (String.ofList (trim name.toList)) s₁ = (some i, s') ∧
      c.target = some i := by
  have htext : (name ++ " = " ++ value).toList = name.toList ++ ' ' :: '=' :: ' ' :: value.toList := by
    simp
  rw [compile_eq_ok_iff_of_split ((congrArg _ htext).trans (splitAssignment_name _ _ hname)),
    trim_append_blank]

end Compile

section Variables

variable {ο : Type} {v w : Variables ο}

theorem compileValue_traced {cs : List Char} {p : Program} (h : compileValue cs v = (.ok p, w)) :
    ∃ lexed, valueLexemes cs = .ok lexed ∧ Traced (namesOf lexed.lexemes) {} p v w := by
  obtain ⟨lexed, hlexed, hrun⟩ := compileValue_eq_ok h
  obtain ⟨b, hmoves, hfinish⟩ := run_eq_ok hrun
  have htraced := hmoves.traced
  refine ⟨lexed, hlexed, htraced.extended, fun i hi => ?_⟩
  rw [loads_finish hfinish] at hi
  exact htraced.bound i hi

theorem resolving_extends : Resolving (@Variables.Extends ο) where
  refl := .refl
  trans _ _ _ := .trans
  read := Variables.resolveRead_extends
  array := Variables.resolveArray_extends
  assign := Variables.resolveAssign_extends

/-- What an assignment has been compiled to: its program loads nothing but the names that it reads,
and its target is bound under the name that it assigns to. -/
structure Assigns (v : Variables ο) (name : String) (names : List String) (c : Compiled) : Prop where
  tree : ∃ t : Tree Variable, c.program = t.program
  loads : ∀ i ∈ c.program.loads, BoundIn v names i
  target : ∃ i, c.target = some i ∧ BoundIn v [name] i

theorem Assigns.mono {name : String} {names : List String} {c : Compiled}
    (h : Assigns v name names c) (hvw : v.Extends w) : Assigns w name names c := by
  obtain ⟨i, hi, hbound⟩ := h.target
  exact ⟨h.tree, fun j hj => (h.loads j hj).mono hvw fun _ hn => hn,
    i, hi, hbound.mono hvw fun _ hn => hn⟩

/-- An assignment is to the name without the blanks around it. -/
theorem compile_assigns_trim {name value : String} {names : List String} {c : Compiled}
    (hname : ∀ ch ∈ name.toList, isDelimiter ch = false) (hnames : variableNames value = .ok names)
    (h : compile (name ++ " = " ++ value) v = (.ok c, w)) :
    Assigns w (String.ofList (trim name.toList)) names c := by
  obtain ⟨u, i, hvalue, -, hassign, htarget⟩ := (compile_assignment_eq_ok_iff hname).mp h
  obtain ⟨lexed, hlexed, htraced⟩ := compileValue_traced hvalue
  have hresolved := Variables.resolveAssign_eq_some hassign
  obtain ⟨b, hb, hbname⟩ := hresolved.named
  refine ⟨compile_eq_tree h, fun j hj => ?_, i, htarget, b, hb, ?_⟩
  · rcases htraced.bound j hj with hempty | hbound
    -- the program was empty at the start
    · cases hempty
    · rw [variableNames_of_valueLexemes hlexed hnames] at hbound
      exact hbound.mono hresolved.extended fun _ hn => hn
  · rw [hbname]
    exact List.mem_cons_self

theorem compile_assigns {name value : String} {names : List String} {c : Compiled}
    (hname : ∀ ch ∈ name.toList, isDelimiter ch = false) (htrim : trim name.toList = name.toList)
    (hnames : variableNames value = .ok names)
    (h : compile (name ++ " = " ++ value) v = (.ok c, w)) : Assigns w name names c := by
  have hassigns := compile_assigns_trim hname hnames h
  rw [htrim, String.ofList_toList] at hassigns
  exact hassigns

end Variables

end ChoiceModel.Expression
