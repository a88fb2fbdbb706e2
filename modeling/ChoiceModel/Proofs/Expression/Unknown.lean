import ChoiceModel.Proofs.Expression.Tiling

/-! Where unknown variables are reported. A name that is not found is the only cause, so such an error
comes from a lexeme of the value, whose name and position it has. -/

namespace ChoiceModel.Expression

open Text Store

section Errors

variable {position level depth lastOpen : Nat} {markers : List Marker} {out : Output} {cs : List Char}
  {e : SyntaxError}

/-- The name and the position of an unknown variable. -/
def SyntaxError.unknown? : SyntaxError → Option (String × Nat)
  | .unknownVariable name position => some (name, position)
  | _ => none

theorem emit_unknown? {op : Opcode} (h : out.emit op position = .error e) : e.unknown? = none := by
  obtain ⟨fault, rfl⟩ := emit_eq_error h
  rfl

theorem settle_unknown? (h : settle level position markers out = .error e) : e.unknown? = none := by
  obtain ⟨fault, rfl⟩ := settle_eq_error h
  rfl

theorem finish_unknown? (h : Builder.finish position markers out = .error e) : e.unknown? = none := by
  induction markers generalizing out with
  | nil =>
    rw [Builder.finish] at h
    split at h
    all_goals cases h
    all_goals rfl
  | cons m markers ih =>
    cases m with
    | operator op =>
      rw [Builder.finish] at h
      split at h
      · exact ih h
      · rename_i hemit
        cases h
        exact emit_unknown? hemit
    | group depth =>
      cases h
      rfl
    | comma =>
      cases h
      rfl
    | call op start =>
      cases h
      rfl

theorem symbol_unknown? {b : Builder} {sym : Symbol} (h : b.symbol sym position = .error e) :
    e.unknown? = none := by
  cases sym with
  | operator op =>
    simp only [Builder.symbol, Builder.operator] at h
    split at h
    · cases h
    · rename_i hsettle
      cases h
      exact settle_unknown? hsettle
  | comma =>
    simp only [Builder.symbol, Builder.comma] at h
    split at h
    · cases h
    · cases h
    · cases h
      rfl
    · rename_i hsettle
      cases h
      exact settle_unknown? hsettle
  | closeParen =>
    simp only [Builder.symbol, Builder.close] at h
    split at h
    · rename_i hsettle
      cases h
      exact settle_unknown? hsettle
    · repeat' split at h
      all_goals cases h
      all_goals first | rfl | exact emit_unknown? ‹_›
  | openParen => cases h
  | assign =>
    cases h
    rfl
  | bang =>
    cases h
    rfl

theorem balanceFrom_unknown? (h : balanceFrom depth lastOpen position cs = .error e) :
    e.unknown? = none := by
  fun_induction balanceFrom depth lastOpen position cs with
  | case1 depth lastOpen position hdepth => cases h
  | case2 depth lastOpen position hdepth =>
    cases h
    rfl
  | case3 depth lastOpen position rest ih => exact ih h
  | case4 lastOpen position rest =>
    cases h
    rfl
  | case5 lastOpen position rest depth ih => exact ih h
  | case6 depth lastOpen position c rest _ _ ih => exact ih h

theorem scanFrom_unknown? {previous : Option Char} (h : scanFrom position previous cs = .error e) :
    e.unknown? = none := by
  fun_induction scanFrom position previous cs with
  | case1 position previous => cases h
  | case2 position previous c rest hblank ih => exact ih h
  | case3 position previous c rest hblank fault hcut =>
    cases h
    rfl
  | case4 position previous c rest hblank k hcut scan hscan ih => cases h
  | case5 position previous c rest hblank k hcut e' herror ih =>
    cases h
    exact ih herror

theorem expandSubscripts_unknown? (h : expandSubscripts cs = .error e) : e.unknown? = none := by
  fun_induction expandSubscripts cs with
  | case1 cs hopening position hposition =>
    cases h
    rfl
  | case2 cs hopening hposition => cases h
  | case3 cs o hopening hclosing =>
    cases h
    rfl
  | case4 cs o hopening sub after hclosing ih => exact ih h

theorem valueLexemes_unknown? (h : valueLexemes cs = .error e) : e.unknown? = none := by
  rw [valueLexemes] at h
  split at h
  · cases h
    rfl
  · split at h
    · rename_i hexpand
      cases h
      exact expandSubscripts_unknown? hexpand
    · split at h
      · rename_i hbalance
        cases h
        exact balanceFrom_unknown? hbalance
      · exact scanFrom_unknown? h

end Errors

section Compile

variable {σ : Type} [Resolver σ] {s s' : σ} {name : String} {position : Nat}

theorem nameStep_unknown {previous next : Option Token} {other : String} {start : Nat} {b : Builder}
    (h : nameStep previous next other start b s = (.error (.unknownVariable name position), s')) :
    other = name ∧ start = position ∧ Opcode.ofName? name = none := by
  unfold nameStep at h
  split at h
  · split at h <;> cases h
  · rename_i hname
    split at h
    · cases h
    · split at h
      · split at h
        · cases h
        · cases h
          exact ⟨rfl, rfl, hname⟩
      · split at h
        · cases h
        · cases h
          exact ⟨rfl, rfl, hname⟩

theorem run_unknown {stop : Nat} {previous : Option Token} {ls : List Lexeme} {b : Builder}
    (h : run stop previous ls b s = (.error (.unknownVariable name position), s')) :
    ∃ l ∈ ls, l.token = .name name ∧ l.position = position ∧ Opcode.ofName? name = none := by
  induction ls generalizing previous b s with
  | nil =>
    rw [run] at h
    cases finish_unknown? (Prod.mk.inj h).1
  | cons l ls ih =>
    rw [run] at h
    split at h
    · obtain ⟨l', hl', hname⟩ := ih h
      exact ⟨l', List.mem_cons_of_mem l hl', hname⟩
    · rename_i hstep
      cases h
      refine ⟨l, List.mem_cons_self, ?_⟩
      unfold step at hstep
      split at hstep
      · cases hstep
      · rename_i hname
        obtain ⟨rfl, hposition, hnone⟩ := nameStep_unknown hstep
        exact ⟨hname, hposition, hnone⟩
      · cases symbol_unknown? (Prod.mk.inj hstep).1

theorem compileValue_unknown {cs : List Char}
    (h : compileValue cs s = (.error (.unknownVariable name position), s')) :
    ∃ lexed, valueLexemes cs = .ok lexed ∧ ∃ l ∈ lexed.lexemes, l.token = .name name ∧
      l.position = position ∧ Opcode.ofName? name = none := by
  rw [compileValue] at h
  split at h
  · rename_i herror
    cases h
    cases valueLexemes_unknown? herror
  · rename_i lexed hlexed
    exact ⟨lexed, hlexed, run_unknown h⟩

theorem checkTarget_unknown? {target : String} {e : SyntaxError} (h : checkTarget target = .error e) :
    e.unknown? = none := by
  unfold checkTarget at h
  simp only at h
  repeat' split at h
  all_goals cases h
  all_goals rfl

/-- A variable is reported to be unknown while the value of the text is compiled. -/
theorem compile_unknown {text : String}
    (h : compile text s = (.error (.unknownVariable name position), s')) :
    compileValue (valueOf text) s = (.error (.unknownVariable name position), s') := by
  rw [valueOf]
  cases hsplit : splitAssignment none text.toList with
  | none =>
    rw [compile, hsplit] at h
    simp only at h ⊢
    split at h
    · cases h
    · rename_i hvalue
      cases h
      exact hvalue
  | some parts =>
    rw [compile, hsplit] at h
    simp only at h ⊢
    split at h
    · rename_i hvalue
      cases h
      exact hvalue
    · split at h
      · rename_i hcheck
        cases h
        cases checkTarget_unknown? hcheck
      · split at h <;> cases h

end Compile

end ChoiceModel.Expression
