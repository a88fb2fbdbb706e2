import ChoiceModel.Proofs.Expression.Marks
import Mathlib.Data.List.TakeWhile
import Mathlib.Logic.Relation

/-! The expansion of subscripts as steps, each of which writes the last subscript of a text as a call.
A subscript in the midst of a text may be written as a call before all others: the steps that come
first are the same on both texts, and lead to the very step between them. -/

namespace ChoiceModel.Expression

open Marks

section Openings

/-- A text behind which a name starts anew. -/
def EndsName (cs : List Char) : Prop := ∀ c ∈ cs.getLast?, isNamePart c = false

structure IsName (name : List Char) : Prop where
  start : name.head?.any isNameStart = true
  part : ∀ c ∈ name, isNamePart c = true

def Opening.behind (front : List Char) (o : Opening) : Opening := { o with before := front ++ o.before }

def Opening.ahead (rest : List Char) (o : Opening) : Opening := { o with after := o.after ++ rest }

/-- The subscript that the character between `left`, in reverse, and `right` opens. -/
def openingAt? (left : List Char) (c : Char) (right : List Char) : Option Opening :=
  if c == '[' then
    match nameBefore left with
    | (_, []) => none
    | (before, name) => some ⟨before, name, right⟩
  else none

theorem lastOpening?_cons (left : List Char) (c : Char) (right : List Char) :
    lastOpening? left (c :: right) = (lastOpening? (c :: left) right).or (openingAt? left c right) := by
  rw [lastOpening?]
  cases lastOpening? (c :: left) right with
  | none => rfl
  | some o => rfl

theorem EndsName.concat {x : Char} (hx : isNamePart x = false) (cs : List Char) :
    EndsName (cs ++ [x]) := by
  intro c hc
  rw [List.getLast?_concat] at hc
  cases hc
  exact hx

theorem EndsName.of_append {front cs : List Char} (h : EndsName (front ++ cs)) : EndsName cs := by
  intro c hc
  refine h c ?_
  rw [List.getLast?_append, Option.mem_def.mp hc]
  rfl

variable {front name : List Char}

theorem nameBefore_behind (h : EndsName front) (left : List Char) :
    nameBefore (left ++ front.reverse) = (front ++ (nameBefore left).1, (nameBefore left).2) := by
  have hspan : (left ++ front.reverse).takeWhile isNamePart = left.takeWhile isNamePart ∧
      (left ++ front.reverse).dropWhile isNamePart = left.dropWhile isNamePart ++ front.reverse := by
    induction left with
    | nil =>
      cases hfront : front.reverse with
      | nil => exact ⟨rfl, rfl⟩
      | cons x rest =>
        have hlast : x ∈ front.getLast? := by
          rw [← List.head?_reverse, hfront]
          rfl
        have hx := ne_true_of_eq_false (h x hlast)
        exact ⟨List.takeWhile_cons_of_neg hx, List.dropWhile_cons_of_neg hx⟩
    | cons c left ih =>
      rw [List.cons_append, List.takeWhile_cons, List.takeWhile_cons, List.dropWhile_cons,
        List.dropWhile_cons, ih.1, ih.2]
      split
      · exact ⟨rfl, rfl⟩
      · exact ⟨rfl, rfl⟩
  simp only [nameBefore, hspan.1, hspan.2, List.reverse_append, List.reverse_reverse,
    List.append_assoc]

theorem nameBefore_name (h : IsName name) : nameBefore name.reverse = ([], name) := by
  have hall : ∀ c ∈ name.reverse, isNamePart c = true := fun c hc => h.part c (List.mem_reverse.mp hc)
  rw [nameBefore, List.takeWhile_eq_self_iff.mpr hall, List.dropWhile_eq_nil_iff.mpr hall,
    List.reverse_reverse]
  cases name with
  | nil => rfl
  | cons c name =>
    have hc : isNameStart c = true := h.start
    simp [hc]

theorem openingAt?_behind (h : EndsName front) (left : List Char) (c : Char) (right : List Char) :
    openingAt? (left ++ front.reverse) c right = (openingAt? left c right).map (Opening.behind front) := by
  rw [openingAt?, openingAt?, nameBefore_behind h]
  split
  · rcases nameBefore left with ⟨before, name⟩
    cases name with
    | nil => rfl
    | cons d name => rfl
  · rfl

theorem openingAt?_ahead (left : List Char) (c : Char) (right rest : List Char) :
    openingAt? left c (right ++ rest) = (openingAt? left c right).map (Opening.ahead rest) := by
  rw [openingAt?, openingAt?]
  split
  · rcases nameBefore left with ⟨before, name⟩
    cases name with
    | nil => rfl
    | cons d name => rfl
  · rfl

theorem lastOpening?_behind (h : EndsName front) (left right : List Char) :
    lastOpening? (left ++ front.reverse) right =
      (lastOpening? left right).map (Opening.behind front) := by
  induction right generalizing left with
  | nil => rfl
  | cons c right ih =>
    rw [lastOpening?_cons, lastOpening?_cons, ← List.cons_append, ih, openingAt?_behind h,
      Option.map_or]

theorem lastOpening?_ahead (left right rest : List Char) :
    lastOpening? left (right ++ rest) =
      (lastOpening? (right.reverse ++ left) rest).or
        ((lastOpening? left right).map (Opening.ahead rest)) := by
  induction right generalizing left with
  | nil => exact (Option.or_none).symm
  | cons c right ih =>
    rw [List.cons_append, lastOpening?_cons, lastOpening?_cons, ih, openingAt?_ahead, Option.map_or,
      Option.or_assoc, List.reverse_cons, List.append_assoc, List.singleton_append]

/-- The last subscript of a text is the last one of its second part, or else of its first. -/
theorem lastOpening?_append (h : EndsName front) (cs : List Char) :
    lastOpening? [] (front ++ cs) = ((lastOpening? [] cs).map (Opening.behind front)).or
      ((lastOpening? [] front).map (Opening.ahead cs)) := by
  have hbehind : lastOpening? front.reverse cs = _ := lastOpening?_behind h [] cs
  rw [lastOpening?_ahead, List.append_nil, hbehind]

theorem lastOpening?_eq_none {right : List Char} (h : ∀ c ∈ right, c ≠ '[') (left : List Char) :
    lastOpening? left right = none := by
  induction right generalizing left with
  | nil => rfl
  | cons c right ih =>
    have hc : openingAt? left c right = none :=
      if_neg (ne_true_of_eq_false (beq_eq_false_iff_ne.mpr (h c List.mem_cons_self)))
    rw [lastOpening?_cons, ih (fun d hd => h d (List.mem_cons_of_mem _ hd)), hc, Option.or_none]

theorem lastOpening?_closed {x : Char} (hx : isNamePart x = false) (hopen : x ≠ '[')
    (sub : List Char) {rest : List Char} (hrest : lastOpening? [] rest = none) :
    lastOpening? [] (sub ++ x :: rest) = (lastOpening? [] sub).map (Opening.ahead (x :: rest)) := by
  have hx' : lastOpening? (sub.reverse ++ []) (x :: rest) = none := by
    have hbehind : lastOpening? (x :: sub.reverse) rest =
        (lastOpening? [] rest).map (Opening.behind (sub ++ [x])) := by
      rw [← lastOpening?_behind (EndsName.concat hx sub), List.reverse_concat, List.nil_append]
    have hat : openingAt? sub.reverse x rest = none :=
      if_neg (ne_true_of_eq_false (beq_eq_false_iff_ne.mpr hopen))
    rw [List.append_nil, lastOpening?_cons, hbehind, hrest, hat]
    rfl
  rw [lastOpening?_ahead, hx', Option.none_or]

theorem lastOpening?_name (hfront : EndsName front) (hname : IsName name) {rest : List Char}
    (hrest : lastOpening? [] rest = none) :
    lastOpening? [] (front ++ name ++ '[' :: rest) = some ⟨front, name, rest⟩ := by
  have hopen : EndsName (front ++ name ++ ['[']) := EndsName.concat (by decide) _
  have hat : openingAt? (front ++ name).reverse '[' [] = some ⟨front, name, []⟩ := by
    rw [openingAt?, if_pos (beq_self_eq_true _), List.reverse_append, nameBefore_behind hfront,
      nameBefore_name hname, List.append_nil]
    cases name with
    | nil => cases hname.start
    | cons c name => rfl
  rw [List.append_cons, lastOpening?_append hopen, hrest, lastOpening?_ahead, List.append_nil,
    lastOpening?_cons, hat]
  simp [lastOpening?, Opening.ahead]

theorem eq_of_lastOpening? {cs : List Char} {o : Opening} (h : lastOpening? [] cs = some o) :
    cs = o.before ++ o.name ++ '[' :: o.after := by
  have heq := lastOpening?_eq h
  rwa [List.reverse_nil, List.nil_append, eq_comm] at heq

theorem lastOpening?_part {left right : List Char} {o : Opening}
    (h : lastOpening? left right = some o) : ∀ c ∈ o.name, isNamePart c = true := by
  induction right generalizing left with
  | nil => cases h
  | cons c right ih =>
    rw [lastOpening?_cons, Option.or_eq_some_iff] at h
    rcases h with h | ⟨-, h⟩
    · exact ih h
    · have hpart : ∀ c ∈ (nameBefore left).2, isNamePart c = true := fun c hc =>
        List.mem_takeWhile_imp (List.mem_reverse.mp ((List.dropWhile_sublist _).mem hc))
      rw [openingAt?] at h
      split at h
      · split at h
        · cases h
        · rename_i hname
          cases h
          rwa [hname] at hpart
      · cases h

theorem either_ignores_part {c : Char} (h : isNamePart c = true) : either.Ignores c := by
  refine either_ignores ⟨?_, ?_, ?_, ?_⟩
  all_goals
    rintro rfl
    cases h

theorem lookupCall_eq (before name sub after : List Char) :
    lookupCall before name sub after =
      before ++ "ARRAY(".toList ++ name ++ ',' :: (sub ++ ')' :: after) := by
  rw [lookupCall, List.append_assoc, List.cons_append]

theorem depthAfter?_lookupCall {m : Marks} {before name sub after : List Char}
    (hpart : ∀ c, isNamePart c = true → m.Ignores c) (hcomma : m.Ignores ',')
    (hname : ∀ c ∈ name, isNamePart c = true)
    (hcall : ∀ depth, m.depthAfter? depth ('(' :: (sub ++ ')' :: after)) =
      m.depthAfter? depth ('[' :: (sub ++ ']' :: after))) (depth : Nat) :
    m.depthAfter? depth (lookupCall before name sub after) =
      m.depthAfter? depth (before ++ name ++ '[' :: (sub ++ ']' :: after)) := by
  have hfunction : m.Balance "ARRAY".toList := .of_ignored fun c hc =>
    hpart c (List.all_eq_true.mp (by decide) c hc)
  have hname : m.Balance name := .of_ignored fun c hc => hpart c (hname c hc)
  have hargument : ∀ depth, m.depthAfter? depth (name ++ ',' :: (sub ++ ')' :: after)) =
      m.depthAfter? depth (sub ++ ')' :: after) := fun depth => by
    rw [hname.depthAfter?_append, depthAfter?_other hcomma]
  have hopened : ∀ depth,
      m.depthAfter? depth ("ARRAY".toList ++ '(' :: (name ++ ',' :: (sub ++ ')' :: after))) =
        m.depthAfter? depth (name ++ '[' :: (sub ++ ']' :: after)) := fun depth => by
    rw [hfunction.depthAfter?_append, hname.depthAfter?_append, ← hcall]
    exact depthAfter?_append_congr hargument depth ['(']
  rw [lookupCall_eq, List.append_assoc, List.append_assoc, List.append_assoc]
  exact depthAfter?_append_congr hopened depth before

end Openings

/-- One step of the expansion. -/
inductive Expands (cs : List Char) : List Char → Prop where
  | call {o : Opening} {sub after : List Char} (hopening : lastOpening? [] cs = some o)
      (hclosing : closing? 0 o.after = some (sub, after)) :
      Expands cs (lookupCall o.before o.name sub after)

namespace Expands

variable {cs ds : List Char}

theorem exists_subscript (h : Expands cs ds) : ∃ before name sub after,
    cs = before ++ name ++ '[' :: (sub ++ ']' :: after) ∧ ds = lookupCall before name sub after ∧
      (∀ c ∈ name, isNamePart c = true) ∧ brackets.Balance sub := by
  obtain @⟨o, sub, after, hopening, hclosing⟩ := h
  obtain ⟨hafter, hsub⟩ := closing?_eq_some_iff.mp hclosing
  refine ⟨o.before, o.name, sub, after, ?_, rfl, lastOpening?_part hopening, hsub⟩
  rw [← hafter]
  exact eq_of_lastOpening? hopening

theorem count_lt (h : Expands cs ds) : ds.count '[' < cs.count '[' := by
  obtain ⟨before, name, sub, after, rfl, rfl, -⟩ := h.exists_subscript
  exact count_lookupCall before name sub after

theorem wellFounded : WellFounded fun ds cs => Expands cs ds :=
  Subrelation.wf count_lt (measure fun cs : List Char => cs.count '[').wf

theorem behind {front : List Char} (hfront : EndsName front) (h : Expands cs ds) :
    Expands (front ++ cs) (front ++ ds) := by
  obtain @⟨o, sub, after, hopening, hclosing⟩ := h
  have hfirst : lastOpening? [] (front ++ cs) = some (o.behind front) := by
    rw [lastOpening?_append hfront, hopening]
    rfl
  have hstep := Expands.call hfirst hclosing
  simpa [lookupCall, Opening.behind] using hstep

theorem closed (h : Expands cs ds) {x : Char} (hx : isNamePart x = false) (hopen : x ≠ '[')
    {rest : List Char} (hrest : lastOpening? [] rest = none) :
    Expands (cs ++ x :: rest) (ds ++ x :: rest) := by
  obtain @⟨o, sub, after, hopening, hclosing⟩ := h
  have hfirst : lastOpening? [] (cs ++ x :: rest) = some (o.ahead (x :: rest)) := by
    rw [lastOpening?_closed hx hopen cs hrest, hopening]
    rfl
  have hsecond : closing? 0 (o.ahead (x :: rest)).after = some (sub, after ++ x :: rest) := by
    obtain ⟨hafter, hsub⟩ := closing?_eq_some_iff.mp hclosing
    refine closing?_eq_some_iff.mpr ⟨?_, hsub⟩
    rw [Opening.ahead, hafter, List.append_assoc, List.cons_append]
  have hstep := Expands.call hfirst hsecond
  simpa [lookupCall, Opening.ahead] using hstep

/-- In a text whose brackets balance, a subscript that opens is closed. -/
theorem of_balance {o : Opening} (h : brackets.Balance cs) (hopening : lastOpening? [] cs = some o) :
    ∃ ds, Expands cs ds := by
  rw [eq_of_lastOpening? hopening, Balance, depthAfter?_append, Option.bind_eq_some_iff] at h
  obtain ⟨depth, -, hafter⟩ := h
  rw [depthAfter?_open rfl] at hafter
  obtain ⟨sub, c, after, hsplit, hsub, -, hc, -⟩ := exists_closing hafter (Nat.zero_le depth)
  rw [beq_iff_eq.mp hc] at hsplit
  exact ⟨_, .call hopening (closing?_eq_some_iff.mpr ⟨hsplit, hsub⟩)⟩

theorem depthAfter?_brackets (h : Expands cs ds) (depth : Nat) :
    brackets.depthAfter? depth ds = brackets.depthAfter? depth cs := by
  obtain ⟨before, name, sub, after, rfl, rfl, hname, hsub⟩ := h.exists_subscript
  refine depthAfter?_lookupCall (fun c hc => brackets_ignores (either_ignores_part hc)) (by decide)
    hname (fun depth => ?_) depth
  rw [depthAfter?_other (by decide), hsub.depthAfter?_append, depthAfter?_other (by decide),
    depthAfter?_open rfl, hsub.depthAfter?_append, depthAfter?_close_succ rfl rfl]

theorem depthAfter?_either (h : Expands cs ds) (depth : Nat) :
    either.depthAfter? depth ds = either.depthAfter? depth cs := by
  obtain ⟨before, name, sub, after, rfl, rfl, hname, -⟩ := h.exists_subscript
  refine depthAfter?_lookupCall (fun c hc => either_ignores_part hc) (by decide) hname
    (fun depth => ?_) depth
  rw [depthAfter?_open rfl, depthAfter?_open rfl]
  -- the two closing marks are one to this count
  refine depthAfter?_append_congr (fun depth => ?_) _ _
  cases depth with
  | zero => rfl
  | succ depth => rfl

theorem expandSubscripts_eq (h : Expands cs ds) : expandSubscripts cs = expandSubscripts ds := by
  obtain @⟨o, sub, after, hopening, hclosing⟩ := h
  rw [expandSubscripts]
  split
  · rename_i hnone
    cases hopening.symm.trans hnone
  · rename_i o' hopening'
    cases hopening.symm.trans hopening'
    split
    · rename_i hnone
      cases hclosing.symm.trans hnone
    · rename_i sub' after' hclosing'
      cases hclosing.symm.trans hclosing'
      rfl

theorem of_behind {front : List Char} {o : Opening} (hfront : EndsName front)
    (hopening : lastOpening? [] cs = some o) (h : Expands (front ++ cs) ds) :
    ∃ es, Expands cs es := by
  obtain @⟨o', sub, after, hopening', hclosing⟩ := h
  rw [lastOpening?_append hfront, hopening] at hopening'
  cases hopening'
  exact ⟨_, .call hopening hclosing⟩

end Expands

section Expansion

variable {cs expanded : List Char}

theorem firstPosition?_eq_none_iff {p : Char → Bool} :
    firstPosition? p cs = none ↔ ∀ c ∈ cs, p c = false := by
  induction cs with
  | nil => simp [firstPosition?]
  | cons c cs ih =>
    rw [firstPosition?, List.forall_mem_cons, ← ih]
    cases p c with
    | true => simp
    | false => simp

/-- A text that no step leads on from is expanded unless a bracket is left in it. -/
theorem expandSubscripts_eq_ok_iff_of_stuck (h : ∀ ds, ¬ Expands cs ds) :
    expandSubscripts cs = .ok expanded ↔ (∀ c ∈ cs, isBracket c = false) ∧ cs = expanded := by
  rw [expandSubscripts, ← firstPosition?_eq_none_iff]
  split
  · split
    · rename_i position hposition
      simp [hposition]
    · rename_i hposition
      simp [hposition]
  · rename_i o hopening
    have hbracket : firstPosition? isBracket cs ≠ none := by
      rw [Ne, firstPosition?_eq_none_iff, eq_of_lastOpening? hopening]
      intro hall
      exact absurd (hall '[' (List.mem_append_right _ List.mem_cons_self)) (by decide)
    split
    · simp [hbracket]
    · rename_i sub after hclosing
      exact absurd (.call hopening hclosing) (h _)

theorem not_expands_of_unbracketed (h : ∀ c ∈ cs, isBracket c = false) (ds : List Char) :
    ¬ Expands cs ds := by
  have hnone : lastOpening? [] cs = none := by
    refine lastOpening?_eq_none (fun c hc hopen => ?_) []
    have hbracket := h c hc
    rw [hopen] at hbracket
    cases hbracket
  rintro ⟨hopening, -⟩
  cases hnone.symm.trans hopening

/-- The expansion of a text is what its steps lead to, if no bracket is left there. -/
theorem expandSubscripts_eq_ok_iff_steps :
    expandSubscripts cs = .ok expanded ↔
      Relation.ReflTransGen Expands cs expanded ∧ ∀ c ∈ expanded, isBracket c = false := by
  constructor
  · intro h
    induction cs using Expands.wellFounded.induction with
    | _ cs ih =>
      by_cases hstep : ∃ ds, Expands cs ds
      · obtain ⟨ds, hstep⟩ := hstep
        obtain ⟨hsteps, hexpanded⟩ := ih ds hstep (hstep.expandSubscripts_eq.symm.trans h)
        exact ⟨.head hstep hsteps, hexpanded⟩
      · obtain ⟨hunbracketed, rfl⟩ := (expandSubscripts_eq_ok_iff_of_stuck (not_exists.mp hstep)).mp h
        exact ⟨.refl, hunbracketed⟩
  · rintro ⟨hsteps, hexpanded⟩
    induction hsteps using Relation.ReflTransGen.head_induction_on with
    | refl =>
      exact (expandSubscripts_eq_ok_iff_of_stuck (not_expands_of_unbracketed hexpanded)).mpr
        ⟨hexpanded, rfl⟩
    | head hstep _ ih => exact hstep.expandSubscripts_eq.trans ih

theorem expandSubscripts_blank (h : expandSubscripts (' ' :: cs) = .ok expanded) :
    ∃ rest, expandSubscripts cs = .ok rest ∧ expanded = ' ' :: rest := by
  have hblank : EndsName [' '] := EndsName.concat (by decide) []
  induction cs using Expands.wellFounded.induction with
  | _ cs ih =>
    by_cases hstep : ∃ ds, Expands cs ds
    · obtain ⟨ds, hstep⟩ := hstep
      obtain ⟨rest, hrest, rfl⟩ := ih ds hstep ((hstep.behind hblank).expandSubscripts_eq.symm.trans h)
      exact ⟨rest, hstep.expandSubscripts_eq.trans hrest, rfl⟩
    · have hstuck : ∀ ds, ¬ Expands (' ' :: cs) ds := by
        intro ds hds
        cases hopening : lastOpening? [] cs with
        | some o => exact hstep (hds.of_behind hblank hopening)
        | none =>
          obtain ⟨hfirst, -⟩ := hds
          have hnone : lastOpening? [] (' ' :: cs) = none := by
            rw [← List.singleton_append, lastOpening?_append hblank, hopening]
            rfl
          cases hnone.symm.trans hfirst
      obtain ⟨hunbracketed, rfl⟩ := (expandSubscripts_eq_ok_iff_of_stuck hstuck).mp h
      have hrest := fun c hc => hunbracketed c (List.mem_cons_of_mem _ hc)
      exact ⟨cs, (expandSubscripts_eq_ok_iff_of_stuck (not_exists.mp hstep)).mpr ⟨hrest, rfl⟩, rfl⟩

end Expansion

section Call

variable {pre name sub post : List Char}

theorem expandSubscripts_subscript_of_last (hpre : EndsName pre) (hname : IsName name)
    (hsub : brackets.Balance sub) (hpost : lastOpening? [] post = none) :
    expandSubscripts (pre ++ name ++ '[' :: (sub ++ ']' :: post)) =
      expandSubscripts (lookupCall pre name sub post) := by
  -- on the steps of what the brackets enclose, which come before the one between the two texts
  induction sub using Expands.wellFounded.induction with
  | _ sub ih =>
    cases hopening : lastOpening? [] sub with
    | none =>
      have hrest : lastOpening? [] (sub ++ ']' :: post) = none := by
        rw [lastOpening?_closed (by decide) (by decide) sub hpost, hopening]
        rfl
      have hclosing : closing? 0 (sub ++ ']' :: post) = some (sub, post) :=
        closing?_eq_some_iff.mpr ⟨rfl, hsub⟩
      exact (Expands.call (lastOpening?_name hpre hname hrest) hclosing).expandSubscripts_eq
    | some o =>
      obtain ⟨sub', hstep⟩ := Expands.of_balance hsub hopening
      have hsub' : brackets.Balance sub' := (hstep.depthAfter?_brackets 0).trans hsub
      have hsubscript : Expands (pre ++ name ++ '[' :: (sub ++ ']' :: post))
          (pre ++ name ++ '[' :: (sub' ++ ']' :: post)) := by
        have hbehind := (hstep.closed (x := ']') (by decide) (by decide) hpost).behind
          (EndsName.concat (x := '[') (by decide) (pre ++ name))
        rwa [← List.append_cons, ← List.append_cons] at hbehind
      have hcall : Expands (lookupCall pre name sub post) (lookupCall pre name sub' post) := by
        have hbehind := (hstep.closed (x := ')') (by decide) (by decide) hpost).behind
          (EndsName.concat (x := ',') (by decide) (pre ++ "ARRAY(".toList ++ name))
        rwa [← List.append_cons, ← List.append_cons, ← lookupCall_eq, ← lookupCall_eq] at hbehind
      rw [hsubscript.expandSubscripts_eq, hcall.expandSubscripts_eq]
      exact ih sub' hstep hsub'

/-- A subscript that opens and is not closed stops the expansion, whatever comes before it. -/
theorem expandSubscripts_ne_ok {o : Opening} (hstep : ∀ ds, ¬ Expands post ds)
    (hopening : lastOpening? [] post = some o) {front : List Char} (hfront : EndsName front)
    (expanded : List Char) : expandSubscripts (front ++ post) ≠ .ok expanded := by
  have hstuck : ∀ ds, ¬ Expands (front ++ post) ds := fun ds hds =>
    not_exists.mpr hstep (hds.of_behind hfront hopening)
  intro h
  obtain ⟨hunbracketed, -⟩ := (expandSubscripts_eq_ok_iff_of_stuck hstuck).mp h
  rw [eq_of_lastOpening? hopening] at hunbracketed
  exact absurd (hunbracketed '[' (by simp)) (by decide)

theorem expandSubscripts_subscript (hpre : EndsName pre) (hname : IsName name)
    (hsub : brackets.Balance sub) (post expanded : List Char) :
    expandSubscripts (pre ++ name ++ '[' :: (sub ++ ']' :: post)) = .ok expanded ↔
      expandSubscripts (lookupCall pre name sub post) = .ok expanded := by
  have hsubscript : ∀ post, pre ++ name ++ '[' :: (sub ++ ']' :: post) =
      pre ++ name ++ '[' :: sub ++ [']'] ++ post := fun post => by simp
  have hcall : ∀ post, lookupCall pre name sub post =
      pre ++ "ARRAY(".toList ++ name ++ ',' :: sub ++ [')'] ++ post := fun post => by simp [lookupCall]
  have hends := EndsName.concat (x := ']') (by decide) (pre ++ name ++ '[' :: sub)
  have hends' := EndsName.concat (x := ')') (by decide) (pre ++ "ARRAY(".toList ++ name ++ ',' :: sub)
  -- on the steps of what follows, which come before all others
  induction post using Expands.wellFounded.induction with
  | _ post ih =>
    by_cases hstep : ∃ post', Expands post post'
    · obtain ⟨post', hstep⟩ := hstep
      have ih := ih post' hstep
      rw [hsubscript, hcall] at ih ⊢
      rw [(hstep.behind hends).expandSubscripts_eq, (hstep.behind hends').expandSubscripts_eq]
      exact ih
    · cases hopening : lastOpening? [] post with
      | none => rw [expandSubscripts_subscript_of_last hpre hname hsub hopening]
      | some o =>
        rw [hsubscript, hcall]
        exact iff_of_false (expandSubscripts_ne_ok (not_exists.mp hstep) hopening hends expanded)
          (expandSubscripts_ne_ok (not_exists.mp hstep) hopening hends' expanded)

end Call

end ChoiceModel.Expression
