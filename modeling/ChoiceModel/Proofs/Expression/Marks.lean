import ChoiceModel.Expression.Balance
import ChoiceModel.Expression.Subscript

/-! Marks that open and close, counted as a text is read. The search for the bracket that closes another
one and the check of parentheses are such counts. -/

namespace ChoiceModel.Expression

structure Marks where
  opens : Char → Bool
  closes : Char → Bool

namespace Marks

def brackets : Marks := ⟨(· == '['), (· == ']')⟩

def parentheses : Marks := ⟨(· == '('), (· == ')')⟩

/-- Marks of both kinds, as if they were one. -/
def either : Marks := ⟨fun c => c == '(' || c == '[', fun c => c == ')' || c == ']'⟩

/-- The marks that are open at the end of a text, where `depth` of them are at its start; none if one is
closed that is not open. -/
def depthAfter? (m : Marks) : Nat → List Char → Option Nat
  | depth, [] => some depth
  | depth, c :: cs =>
    if m.opens c then m.depthAfter? (depth + 1) cs
    else if m.closes c then if depth = 0 then none else m.depthAfter? (depth - 1) cs
    else m.depthAfter? depth cs

def Balance (m : Marks) (cs : List Char) : Prop := m.depthAfter? 0 cs = some 0

instance (m : Marks) (cs : List Char) : Decidable (m.Balance cs) :=
  inferInstanceAs (Decidable (_ = _))

def Ignores (m : Marks) (c : Char) : Prop := m.opens c = false ∧ m.closes c = false

instance (m : Marks) (c : Char) : Decidable (m.Ignores c) := inferInstanceAs (Decidable (_ ∧ _))

variable {m : Marks} {c : Char} {cs ds sub after : List Char} {depth e : Nat}

theorem depthAfter?_open (h : m.opens c = true) (depth : Nat) (cs : List Char) :
    m.depthAfter? depth (c :: cs) = m.depthAfter? (depth + 1) cs := by
  rw [depthAfter?, if_pos h]

theorem depthAfter?_close_zero (hopens : m.opens c = false) (hcloses : m.closes c = true)
    (cs : List Char) : m.depthAfter? 0 (c :: cs) = none := by
  rw [depthAfter?, if_neg (ne_true_of_eq_false hopens), if_pos hcloses, if_pos rfl]

theorem depthAfter?_close_succ (hopens : m.opens c = false) (hcloses : m.closes c = true)
    (depth : Nat) (cs : List Char) :
    m.depthAfter? (depth + 1) (c :: cs) = m.depthAfter? depth cs := by
  rw [depthAfter?, if_neg (ne_true_of_eq_false hopens), if_pos hcloses,
    if_neg (Nat.succ_ne_zero _), Nat.add_sub_cancel]

theorem depthAfter?_other (h : m.Ignores c) (depth : Nat) (cs : List Char) :
    m.depthAfter? depth (c :: cs) = m.depthAfter? depth cs := by
  rw [depthAfter?, if_neg (ne_true_of_eq_false h.1), if_neg (ne_true_of_eq_false h.2)]

theorem depthAfter?_append (m : Marks) (depth : Nat) (cs ds : List Char) :
    m.depthAfter? depth (cs ++ ds) = (m.depthAfter? depth cs).bind fun e => m.depthAfter? e ds := by
  induction cs generalizing depth with
  | nil => rfl
  | cons c cs ih =>
    rw [List.cons_append, depthAfter?, depthAfter?]
    split
    · exact ih _
    · split
      · split
        · rfl
        · exact ih _
      · exact ih _

theorem depthAfter?_append_congr (h : ∀ depth, m.depthAfter? depth cs = m.depthAfter? depth ds)
    (depth : Nat) (front : List Char) :
    m.depthAfter? depth (front ++ cs) = m.depthAfter? depth (front ++ ds) := by
  simp only [depthAfter?_append, h]

theorem Balance.of_ignored (h : ∀ c ∈ cs, m.Ignores c) : m.Balance cs := by
  induction cs with
  | nil => rfl
  | cons c cs ih =>
    rw [Balance, depthAfter?_other (h c List.mem_cons_self)]
    exact ih fun d hd => h d (List.mem_cons_of_mem _ hd)

/-- Marks that are open from the start on and never closed do not matter. -/
theorem depthAfter?_add (h : m.depthAfter? depth cs = some e) (k : Nat) :
    m.depthAfter? (depth + k) cs = some (e + k) := by
  induction cs generalizing depth with
  | nil =>
    cases h
    rfl
  | cons c cs ih =>
    cases hopens : m.opens c with
    | true =>
      rw [depthAfter?_open hopens] at h ⊢
      rw [Nat.add_right_comm]
      exact ih h
    | false =>
      cases hcloses : m.closes c with
      | true =>
        cases depth with
        | zero =>
          rw [depthAfter?_close_zero hopens hcloses] at h
          cases h
        | succ depth =>
          rw [depthAfter?_close_succ hopens hcloses] at h
          rw [Nat.add_right_comm, depthAfter?_close_succ hopens hcloses]
          exact ih h
      | false =>
        rw [depthAfter?_other ⟨hopens, hcloses⟩] at h ⊢
        exact ih h

theorem Balance.depthAfter? (h : m.Balance cs) (depth : Nat) :
    m.depthAfter? depth cs = some depth := by
  have hadd := depthAfter?_add h depth
  rwa [Nat.zero_add] at hadd

theorem Balance.depthAfter?_append (h : m.Balance cs) (depth : Nat) (ds : List Char) :
    m.depthAfter? depth (cs ++ ds) = m.depthAfter? depth ds := by
  rw [Marks.depthAfter?_append, h.depthAfter?]
  rfl

/-- A text that closes a mark from its start falls in two where it does so. -/
theorem exists_closing (h : m.depthAfter? (depth + 1) cs = some e) (he : e ≤ depth) :
    ∃ sub c after, cs = sub ++ c :: after ∧ m.Balance sub ∧ m.opens c = false ∧ m.closes c = true ∧
      m.depthAfter? depth after = some e := by
  -- with `k` marks open on top of the one to be closed
  have hmain : ∀ k, m.depthAfter? (depth + 1 + k) cs = some e →
      ∃ sub c after, cs = sub ++ c :: after ∧ m.depthAfter? k sub = some 0 ∧ m.opens c = false ∧
        m.closes c = true ∧ m.depthAfter? depth after = some e := by
    clear h
    induction cs with
    | nil =>
      intro k h
      cases h
      omega
    | cons c cs ih =>
      intro k h
      cases hopens : m.opens c with
      | true =>
        rw [depthAfter?_open hopens] at h
        obtain ⟨sub, d, after, rfl, hsub, hd⟩ := ih (k + 1) h
        refine ⟨c :: sub, d, after, rfl, ?_, hd⟩
        rw [depthAfter?_open hopens]
        exact hsub
      | false =>
        cases hcloses : m.closes c with
        | true =>
          cases k with
          | zero =>
            rw [Nat.add_zero, depthAfter?_close_succ hopens hcloses] at h
            exact ⟨[], c, cs, rfl, rfl, hopens, hcloses, h⟩
          | succ k =>
            rw [← Nat.add_assoc, depthAfter?_close_succ hopens hcloses] at h
            obtain ⟨sub, d, after, rfl, hsub, hd⟩ := ih k h
            refine ⟨c :: sub, d, after, rfl, ?_, hd⟩
            rw [depthAfter?_close_succ hopens hcloses]
            exact hsub
        | false =>
          rw [depthAfter?_other ⟨hopens, hcloses⟩] at h
          obtain ⟨sub, d, after, rfl, hsub, hd⟩ := ih k h
          refine ⟨c :: sub, d, after, rfl, ?_, hd⟩
          rw [depthAfter?_other ⟨hopens, hcloses⟩]
          exact hsub
  exact hmain 0 h

/-- A text whose marks balance is read a character or a pair of marks at a time. -/
theorem balance_induction {motive : List Char → Prop} (nil : motive [])
    (other : ∀ c cs, m.Ignores c → m.Balance cs → motive cs → motive (c :: cs))
    (enclosed : ∀ o sub c cs, m.opens o = true → m.opens c = false → m.closes c = true →
      m.Balance sub → m.Balance cs → motive sub → motive cs → motive (o :: (sub ++ c :: cs)))
    (h : m.Balance cs) : motive cs := by
  -- on the length, since a pair encloses any number of characters
  induction hlen : cs.length using Nat.strongRecOn generalizing cs with
  | ind n ih =>
    subst hlen
    cases cs with
    | nil => exact nil
    | cons o cs =>
      cases hopens : m.opens o with
      | true =>
        rw [Balance, depthAfter?_open hopens] at h
        obtain ⟨sub, c, after, rfl, hsub, hc, hcloses, hafter⟩ := exists_closing h (Nat.le_refl 0)
        have hlen : sub.length < (o :: (sub ++ c :: after)).length := by
          simp only [List.length_cons, List.length_append]
          omega
        have hlen' : after.length < (o :: (sub ++ c :: after)).length := by
          simp only [List.length_cons, List.length_append]
          omega
        exact enclosed o sub c after hopens hc hcloses hsub hafter (ih _ hlen hsub rfl)
          (ih _ hlen' hafter rfl)
      | false =>
        cases hcloses : m.closes o with
        | true =>
          rw [Balance, depthAfter?_close_zero hopens hcloses] at h
          cases h
        | false =>
          rw [Balance, depthAfter?_other ⟨hopens, hcloses⟩] at h
          exact other o cs ⟨hopens, hcloses⟩ h (ih _ (Nat.lt_succ_self _) h rfl)

/-- A text that closes more marks than are open falls in two where it first does so. -/
theorem exists_excess (h : m.depthAfter? depth cs = none) :
    ∃ front c rest, cs = front ++ c :: rest ∧ m.depthAfter? depth front = some 0 ∧
      m.opens c = false ∧ m.closes c = true := by
  induction cs generalizing depth with
  | nil => cases h
  | cons c cs ih =>
    cases hopens : m.opens c with
    | true =>
      rw [depthAfter?_open hopens] at h
      obtain ⟨front, d, rest, rfl, hfront, hd⟩ := ih h
      refine ⟨c :: front, d, rest, rfl, ?_, hd⟩
      rw [depthAfter?_open hopens]
      exact hfront
    | false =>
      cases hcloses : m.closes c with
      | true =>
        cases depth with
        | zero => exact ⟨[], c, cs, rfl, rfl, hopens, hcloses⟩
        | succ depth =>
          rw [depthAfter?_close_succ hopens hcloses] at h
          obtain ⟨front, d, rest, rfl, hfront, hd⟩ := ih h
          refine ⟨c :: front, d, rest, rfl, ?_, hd⟩
          rw [depthAfter?_close_succ hopens hcloses]
          exact hfront
      | false =>
        rw [depthAfter?_other ⟨hopens, hcloses⟩] at h
        obtain ⟨front, d, rest, rfl, hfront, hd⟩ := ih h
        refine ⟨c :: front, d, rest, rfl, ?_, hd⟩
        rw [depthAfter?_other ⟨hopens, hcloses⟩]
        exact hfront

theorem either_ignores (h : c ≠ '(' ∧ c ≠ '[' ∧ c ≠ ')' ∧ c ≠ ']') : either.Ignores c := by
  obtain ⟨hopens, hopens', hcloses, hcloses'⟩ := h
  exact ⟨Bool.or_eq_false_iff.mpr ⟨beq_eq_false_iff_ne.mpr hopens, beq_eq_false_iff_ne.mpr hopens'⟩,
    Bool.or_eq_false_iff.mpr ⟨beq_eq_false_iff_ne.mpr hcloses, beq_eq_false_iff_ne.mpr hcloses'⟩⟩

theorem mark_of_not_ignores (h : ¬ either.Ignores c) : c = '(' ∨ c = '[' ∨ c = ')' ∨ c = ']' := by
  refine Decidable.byContradiction fun hne => h (either_ignores ?_)
  simpa only [not_or] using hne

theorem brackets_ignores (h : either.Ignores c) : brackets.Ignores c :=
  ⟨(Bool.or_eq_false_iff.mp h.1).2, (Bool.or_eq_false_iff.mp h.2).2⟩

theorem parentheses_ignores (h : either.Ignores c) : parentheses.Ignores c :=
  ⟨(Bool.or_eq_false_iff.mp h.1).1, (Bool.or_eq_false_iff.mp h.2).1⟩

end Marks

open Marks

/-- A bracket that opens or closes another one is the first of what stands in front of the closing one. -/
theorem closing?_cons {depth e : Nat} {c : Char} {cs sub after : List Char}
    (hcons : closing? depth (c :: cs) = (closing? e cs).map fun p => (c :: p.1, p.2))
    (hdepth : ∀ sub, brackets.depthAfter? depth (c :: sub) = brackets.depthAfter? e sub)
    (hc : ¬ (c = ']' ∧ depth = 0))
    (ih : ∀ {sub}, closing? e cs = some (sub, after) ↔
      cs = sub ++ ']' :: after ∧ brackets.depthAfter? e sub = some 0) :
    closing? depth (c :: cs) = some (sub, after) ↔
      c :: cs = sub ++ ']' :: after ∧ brackets.depthAfter? depth sub = some 0 := by
  rw [hcons, Option.map_eq_some_iff]
  constructor
  · rintro ⟨⟨rest, _⟩, hrest, hpair⟩
    cases hpair
    obtain ⟨rfl, hzero⟩ := ih.mp hrest
    exact ⟨rfl, (hdepth rest).trans hzero⟩
  · rintro ⟨hcs, hzero⟩
    cases sub with
    | nil =>
      cases hcs
      cases hzero
      exact absurd ⟨rfl, rfl⟩ hc
    | cons d rest =>
      cases hcs
      exact ⟨(rest, after), ih.mpr ⟨rfl, (hdepth rest).symm.trans hzero⟩, rfl⟩

theorem closing?_eq_some_iff {depth : Nat} {cs sub after : List Char} :
    closing? depth cs = some (sub, after) ↔
      cs = sub ++ ']' :: after ∧ brackets.depthAfter? depth sub = some 0 := by
  induction cs generalizing depth sub with
  | nil => simp [closing?]
  | cons c cs ih =>
    by_cases hcloses : c = ']'
    · subst hcloses
      cases depth with
      | zero =>
        have hfirst : closing? 0 (']' :: cs) = some ([], cs) := rfl
        rw [hfirst]
        constructor
        · intro h
          cases h
          exact ⟨rfl, rfl⟩
        · rintro ⟨hcs, hzero⟩
          cases sub with
          | nil =>
            cases hcs
            rfl
          | cons d rest =>
            cases hcs
            cases hzero
      | succ depth =>
        exact closing?_cons rfl (depthAfter?_close_succ rfl rfl depth)
          (fun h => Nat.succ_ne_zero depth h.2) ih
    · by_cases hopens : c = '['
      · subst hopens
        exact closing?_cons rfl (depthAfter?_open rfl depth) (fun h => hcloses h.1) ih
      · refine closing?_cons (e := depth) ?_ (depthAfter?_other ⟨beq_eq_false_iff_ne.mpr hopens,
          beq_eq_false_iff_ne.mpr hcloses⟩ depth) (fun h => hcloses h.1) ih
        simp [closing?, hopens, hcloses]

theorem parentheses_ignores_of_ne {c : Char} (hopens : c ≠ '(') (hcloses : c ≠ ')') :
    parentheses.Ignores c :=
  ⟨beq_eq_false_iff_ne.mpr hopens, beq_eq_false_iff_ne.mpr hcloses⟩

theorem balanceFrom_other {c : Char} (hopens : c ≠ '(') (hcloses : c ≠ ')')
    (depth lastOpen position : Nat) (cs : List Char) : balanceFrom depth lastOpen position (c :: cs) =
      balanceFrom depth lastOpen (position + c.utf8Size) cs := by
  rw [balanceFrom]
  · exact hopens
  · exact hcloses

theorem balanceFrom_eq_ok_iff {depth lastOpen position : Nat} {cs : List Char} :
    balanceFrom depth lastOpen position cs = .ok () ↔ parentheses.depthAfter? depth cs = some 0 := by
  induction cs generalizing depth lastOpen position with
  | nil =>
    rw [balanceFrom, depthAfter?]
    cases depth with
    | zero => simp
    | succ depth => simp
  | cons c cs ih =>
    by_cases hopens : c = '('
    · subst hopens
      rw [balanceFrom, depthAfter?_open rfl]
      exact ih
    · by_cases hcloses : c = ')'
      · subst hcloses
        cases depth with
        | zero => simp [balanceFrom, depthAfter?_close_zero (m := parentheses) (c := ')') rfl rfl]
        | succ depth =>
          rw [balanceFrom, depthAfter?_close_succ rfl rfl]
          exact ih
      · rw [balanceFrom_other hopens hcloses, depthAfter?_other (parentheses_ignores_of_ne hopens hcloses)]
        exact ih

theorem checkBalance_eq_ok_iff {cs : List Char} :
    checkBalance cs = .ok () ↔ parentheses.Balance cs := balanceFrom_eq_ok_iff

end ChoiceModel.Expression
