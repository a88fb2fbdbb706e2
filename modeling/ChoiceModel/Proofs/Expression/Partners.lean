import ChoiceModel.Proofs.Expression.Marks
import ChoiceModel.Text.Blank

/-! Parentheses and their partners. The check accepts exactly the texts whose parentheses come in pairs. It
fails at the first `)` that closes nothing or, where there is none, at the last `(` of the text, which has a
partner all the same if a `)` stands behind it. -/

namespace ChoiceModel.Expression

open Text Marks

/-- Texts whose parentheses come in pairs. -/
inductive Paired : List Char → Prop where
  | nil : Paired []
  | other {c : Char} {cs : List Char} : c ≠ '(' → c ≠ ')' → Paired cs → Paired (c :: cs)
  | pair {sub cs : List Char} : Paired sub → Paired cs → Paired ('(' :: (sub ++ ')' :: cs))

/-- A parenthesis between two parts of a text has a partner in one of them, with nothing but pairs between
the two. -/
inductive HasPartner : List Char → Char → List Char → Prop where
  | opening (before : List Char) {sub : List Char} (after : List Char) : Paired sub →
    HasPartner before '(' (sub ++ ')' :: after)
  | closing (before : List Char) {sub : List Char} (after : List Char) : Paired sub →
    HasPartner (before ++ '(' :: sub) ')' after

variable {cs before after : List Char} {c : Char}

theorem paired_iff_balance : Paired cs ↔ parentheses.Balance cs := by
  constructor
  · intro h
    induction h with
    | nil => rfl
    | other hopens hcloses _ ih =>
      rw [Balance, depthAfter?_other (parentheses_ignores_of_ne hopens hcloses)]
      exact ih
    | pair _ _ ihsub ih =>
      rw [Balance, depthAfter?_open rfl, ihsub.depthAfter?_append, depthAfter?_close_succ rfl rfl]
      exact ih
  · refine balance_induction .nil ?other ?enclosed
    case other => exact fun c cs hc _ ih => .other (ne_of_beq_false hc.1) (ne_of_beq_false hc.2) ih
    case enclosed =>
      intro o sub c cs ho _ hc _ _ ihsub ih
      obtain rfl : o = '(' := beq_iff_eq.mp ho
      obtain rfl : c = ')' := beq_iff_eq.mp hc
      exact .pair ihsub ih

theorem Paired.of_not_mem (hopens : '(' ∉ cs) (hcloses : ')' ∉ cs) : Paired cs := by
  induction cs with
  | nil => exact .nil
  | cons c cs ih =>
    rw [List.mem_cons, not_or] at hopens hcloses
    exact .other (Ne.symm hopens.1) (Ne.symm hcloses.1) (ih hopens.2 hcloses.2)

theorem hasPartner_open_iff : HasPartner before '(' after ↔
    ∃ sub rest, after = sub ++ ')' :: rest ∧ Paired sub := by
  constructor
  · intro h
    cases h with
    | opening _ rest hsub => exact ⟨_, rest, rfl, hsub⟩
  · rintro ⟨sub, rest, rfl, hsub⟩
    exact .opening before rest hsub

theorem hasPartner_close_iff : HasPartner before ')' after ↔
    ∃ front sub, before = front ++ '(' :: sub ∧ Paired sub := by
  constructor
  · intro h
    cases h with
    | closing front _ hsub => exact ⟨front, _, rfl, hsub⟩
  · rintro ⟨front, sub, rfl, hsub⟩
    exact .closing front after hsub

/-- The last `(` of a text has its partner in the first `)` behind it. -/
theorem hasPartner_open_iff_mem (hafter : '(' ∉ after) :
    HasPartner before '(' after ↔ ')' ∈ after := by
  rw [hasPartner_open_iff]
  constructor
  · rintro ⟨sub, rest, rfl, -⟩
    exact List.mem_append_right _ List.mem_cons_self
  · intro hclose
    obtain ⟨sub, rest, rfl, hsub⟩ := List.eq_append_cons_of_mem hclose
    exact ⟨sub, rest, rfl, .of_not_mem (fun h => hafter (List.mem_append_left _ h)) hsub⟩

/-- A `)` behind a text in pairs has no partner. -/
theorem not_hasPartner_close (h : parentheses.Balance before) : ¬ HasPartner before ')' after := by
  rw [hasPartner_close_iff]
  rintro ⟨front, sub, rfl, hsub⟩
  rw [Balance, depthAfter?_append, Option.bind_eq_some_iff] at h
  obtain ⟨depth, -, hdepth⟩ := h
  rw [depthAfter?_open rfl, (paired_iff_balance.mp hsub).depthAfter?] at hdepth
  cases hdepth

theorem balanceFrom_append {depth e : Nat} (lastOpen position : Nat)
    (h : parentheses.depthAfter? depth before = some e) (after : List Char) :
    ∃ last, balanceFrom depth lastOpen position (before ++ after) =
      balanceFrom e last (position + byteLength before) after := by
  induction before generalizing depth lastOpen position with
  | nil =>
    cases h
    exact ⟨lastOpen, rfl⟩
  | cons c before ih =>
    rw [byteLength_cons, ← Nat.add_assoc]
    by_cases hopens : c = '('
    · subst hopens
      rw [depthAfter?_open rfl] at h
      exact ih position _ h
    · by_cases hcloses : c = ')'
      · subst hcloses
        cases depth with
        | zero => cases h
        | succ depth =>
          rw [depthAfter?_close_succ rfl rfl] at h
          exact ih lastOpen _ h
      · rw [depthAfter?_other (parentheses_ignores_of_ne hopens hcloses)] at h
        rw [List.cons_append, balanceFrom_other hopens hcloses]
        exact ih lastOpen _ h

theorem balanceFrom_of_not_mem {depth lastOpen position e : Nat} (hopens : '(' ∉ cs)
    (h : parentheses.depthAfter? depth cs = some (e + 1)) :
    balanceFrom depth lastOpen position cs = .error (.unbalanced lastOpen) := by
  induction cs generalizing depth position with
  | nil =>
    cases h
    rfl
  | cons c cs ih =>
    rw [List.mem_cons, not_or] at hopens
    by_cases hcloses : c = ')'
    · subst hcloses
      cases depth with
      | zero => cases h
      | succ depth =>
        rw [depthAfter?_close_succ rfl rfl] at h
        exact ih hopens.2 h
    · have hc := Ne.symm hopens.1
      rw [depthAfter?_other (parentheses_ignores_of_ne hc hcloses)] at h
      rw [balanceFrom_other hc hcloses]
      exact ih hopens.2 h

theorem le_of_not_mem_open {depth e : Nat} (hopens : '(' ∉ cs)
    (h : parentheses.depthAfter? depth cs = some e) : e ≤ depth := by
  induction cs generalizing depth with
  | nil =>
    cases h
    exact Nat.le_refl _
  | cons c cs ih =>
    rw [List.mem_cons, not_or] at hopens
    by_cases hcloses : c = ')'
    · subst hcloses
      cases depth with
      | zero => cases h
      | succ depth =>
        rw [depthAfter?_close_succ rfl rfl] at h
        exact Nat.le_succ_of_le (ih hopens.2 h)
    · rw [depthAfter?_other (parentheses_ignores_of_ne (Ne.symm hopens.1) hcloses)] at h
      exact ih hopens.2 h

theorem exists_last_of_mem {α : Type} {a : α} {as : List α} (h : a ∈ as) :
    ∃ front rest, as = front ++ a :: rest ∧ a ∉ rest := by
  obtain ⟨rest, front, hsplit, hrest⟩ := List.eq_append_cons_of_mem (List.mem_reverse.mpr h)
  refine ⟨front.reverse, rest.reverse, ?_, fun hmem => hrest (List.mem_reverse.mp hmem)⟩
  rw [← List.reverse_reverse as, hsplit]
  simp

theorem checkBalance_of_excess (h : parentheses.depthAfter? 0 cs = none) :
    ∃ before after, cs = before ++ ')' :: after ∧ parentheses.Balance before ∧
      checkBalance cs = .error (.unbalanced (byteLength before)) := by
  obtain ⟨before, c, after, rfl, hbefore, -, hc⟩ := exists_excess h
  obtain rfl : c = ')' := beq_iff_eq.mp hc
  obtain ⟨last, hrest⟩ := balanceFrom_append 0 0 hbefore (')' :: after)
  refine ⟨before, after, rfl, hbefore, ?_⟩
  rw [checkBalance, hrest, balanceFrom, Nat.zero_add]

theorem checkBalance_of_open {e : Nat} (h : parentheses.depthAfter? 0 cs = some (e + 1)) :
    ∃ before after, cs = before ++ '(' :: after ∧ '(' ∉ after ∧
      checkBalance cs = .error (.unbalanced (byteLength before)) := by
  have hmem : '(' ∈ cs := Decidable.byContradiction fun hopens =>
    Nat.not_succ_le_zero e (le_of_not_mem_open hopens h)
  obtain ⟨before, after, rfl, hafter⟩ := exists_last_of_mem hmem
  refine ⟨before, after, rfl, hafter, ?_⟩
  rw [depthAfter?_append, Option.bind_eq_some_iff] at h
  obtain ⟨depth, hbefore, hrest⟩ := h
  obtain ⟨last, happend⟩ := balanceFrom_append 0 0 hbefore ('(' :: after)
  rw [checkBalance, happend, balanceFrom, Nat.zero_add]
  exact balanceFrom_of_not_mem hafter hrest

/-- The check accepts the texts whose parentheses come in pairs. Any other text fails at a `)` behind pairs
alone or at its last `(`, and what it fails at has no partner, but for a `(` with a `)` somewhere behind it. -/
theorem checkBalance_position (cs : List Char) :
    (checkBalance cs = .ok () ↔ Paired cs) ∧
      (¬ Paired cs → ∃ before c after, cs = before ++ c :: after ∧
        checkBalance cs = .error (.unbalanced (byteLength before)) ∧
        (c = ')' ∧ Paired before ∨ c = '(' ∧ '(' ∉ after) ∧
        (HasPartner before c after ↔ c = '(' ∧ ')' ∈ after)) := by
  rw [checkBalance_eq_ok_iff, paired_iff_balance]
  refine ⟨Iff.rfl, fun h => ?_⟩
  cases hdepth : parentheses.depthAfter? 0 cs with
  | none =>
    obtain ⟨before, after, hcs, hbefore, hcheck⟩ := checkBalance_of_excess hdepth
    refine ⟨before, ')', after, hcs, hcheck, .inl ⟨rfl, paired_iff_balance.mpr hbefore⟩, ?_⟩
    simp [not_hasPartner_close hbefore]
  | some depth =>
    cases depth with
    | zero => exact absurd hdepth h
    | succ e =>
      obtain ⟨before, after, hcs, hafter, hcheck⟩ := checkBalance_of_open hdepth
      refine ⟨before, '(', after, hcs, hcheck, .inr ⟨rfl, hafter⟩, ?_⟩
      rw [hasPartner_open_iff_mem hafter]
      simp

/-- One pair in front of a `)` that closes nothing. -/
theorem checkBalance_position_excess : ¬ Paired "(a)b)".toList ∧
    ∃ before c after, "(a)b)".toList = before ++ c :: after ∧
      checkBalance "(a)b)".toList = .error (.unbalanced (byteLength before)) ∧
      (c = ')' ∧ Paired before ∨ c = '(' ∧ '(' ∉ after) ∧
      (HasPartner before c after ↔ c = '(' ∧ ')' ∈ after) := by
  have hpaired : ¬ Paired "(a)b)".toList := by
    rw [paired_iff_balance]
    decide
  exact ⟨hpaired, (checkBalance_position _).2 hpaired⟩

/-- The second `(` is the one that is closed, and the check fails there. -/
theorem not_partnerless_position : ¬ ∀ (cs : List Char) (position : Nat),
    checkBalance cs = .error (.unbalanced position) → ∃ before c after, cs = before ++ c :: after ∧
      byteLength before = position ∧ (c = '(' ∨ c = ')') ∧ ¬ HasPartner before c after := by
  intro h
  obtain ⟨before, c, after, hcs, hbytes, -, hlone⟩ := h "((1)".toList 1 rfl
  have hsplit : ['('] ++ '(' :: ['1', ')'] = before ++ c :: after := hcs
  obtain ⟨rfl, hrest⟩ := append_inj_of_byteLength hsplit hbytes.symm
  obtain ⟨rfl, rfl⟩ := List.cons.inj hrest
  exact hlone (.opening _ [] (@Paired.of_not_mem ['1'] (by decide) (by decide)))

end ChoiceModel.Expression
