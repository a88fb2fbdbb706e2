import ChoiceModel.Proofs.Expression.Assignment
import ChoiceModel.Store.DataTable

/-! Brackets and parentheses in a text that compiles. The expansion keeps the count of brackets and the
count of marks of both kinds, so each of the two balances in the text; whether no two marks cross is a
matter of what the brackets enclose. -/

namespace ChoiceModel.Expression

open Text Store Marks

/-- The marks that close what is open after a text, the innermost first, where `stack` does so before
it; none if a mark closes what is not open, or not the innermost. -/
def awaited? (stack : List Char) : List Char → Option (List Char)
  | [] => some stack
  | c :: cs =>
    if c = '(' then awaited? (')' :: stack) cs
    else if c = '[' then awaited? (']' :: stack) cs
    else if c = ')' ∨ c = ']' then if stack.head? = some c then awaited? stack.tail cs else none
    else awaited? stack cs

/-- Every mark closes the last one that is open, and is of its kind. -/
def Nested (cs : List Char) : Prop := awaited? [] cs = some []

instance (cs : List Char) : Decidable (Nested cs) := inferInstanceAs (Decidable (_ = _))

/-- What stands between a bracket and the one that closes it has balanced parentheses. -/
def EnclosedBalance (cs : List Char) : Prop :=
  ∀ before rest sub after, cs = before ++ '[' :: rest → closing? 0 rest = some (sub, after) →
    checkBalance sub = .ok ()

variable {c : Char} {cs sub : List Char}

theorem awaited?_append (stack cs ds : List Char) :
    awaited? stack (cs ++ ds) = (awaited? stack cs).bind fun rest => awaited? rest ds := by
  induction cs generalizing stack with
  | nil => rfl
  | cons c cs ih =>
    rw [List.cons_append, awaited?, awaited?]
    split
    · exact ih _
    · split
      · exact ih _
      · split
        · split
          · exact ih _
          · rfl
        · exact ih _

theorem awaited?_other (h : either.Ignores c) (stack cs : List Char) :
    awaited? stack (c :: cs) = awaited? stack cs := by
  have hopens := Bool.or_eq_false_iff.mp h.1
  have hcloses := Bool.or_eq_false_iff.mp h.2
  simp only [beq_eq_false_iff_ne] at hopens hcloses
  rw [awaited?, if_neg hopens.1, if_neg hopens.2, if_neg (not_or.mpr hcloses)]

theorem awaited?_close (hc : c = ')' ∨ c = ']') (stack cs : List Char) :
    awaited? stack (c :: cs) =
      if stack.head? = some c then awaited? stack.tail cs else none := by
  rcases hc with rfl | rfl
  · rfl
  · rfl

theorem awaited?_close_cons (hc : c = ')' ∨ c = ']') (stack cs : List Char) :
    awaited? (c :: stack) (c :: cs) = awaited? stack cs := by
  rw [awaited?_close hc, List.head?_cons, if_pos rfl, List.tail_cons]

theorem awaited?_close_eq_some (hc : c = ')' ∨ c = ']') {stack rest : List Char}
    (h : awaited? stack (c :: cs) = some rest) :
    ∃ tail, stack = c :: tail ∧ awaited? tail cs = some rest := by
  rw [awaited?_close hc] at h
  split at h
  · rename_i hhead
    exact ⟨stack.tail, List.eq_cons_of_mem_head? hhead, h⟩
  · cases h

theorem EnclosedBalance.of_cons (h : EnclosedBalance (c :: cs)) : EnclosedBalance cs :=
  fun before rest sub after hcs => h (c :: before) rest sub after (congrArg (c :: ·) hcs)

theorem EnclosedBalance.of_append (h : EnclosedBalance (cs ++ sub)) : EnclosedBalance sub := by
  induction cs with
  | nil => exact h
  | cons c cs ih => exact ih h.of_cons

theorem EnclosedBalance.append_of (h : EnclosedBalance (cs ++ sub)) : EnclosedBalance cs := by
  intro before rest sub' after hcs hclosing
  obtain ⟨hrest, hsub⟩ := closing?_eq_some_iff.mp hclosing
  refine h before (rest ++ sub) sub' (after ++ sub) ?_ (closing?_eq_some_iff.mpr ⟨?_, hsub⟩)
  · rw [hcs, List.append_assoc, List.cons_append]
  · rw [hrest, List.append_assoc, List.cons_append]

theorem EnclosedBalance.balance (h : EnclosedBalance ('[' :: (sub ++ ']' :: cs)))
    (hsub : brackets.Balance sub) : parentheses.Balance sub :=
  checkBalance_eq_ok_iff.mp (h [] _ sub cs rfl (closing?_eq_some_iff.mpr ⟨rfl, hsub⟩))

/-- A text whose brackets balance is read a character or a pair of brackets at a time. -/
theorem brackets_induction {motive : List Char → Prop} (nil : motive [])
    (other : ∀ c cs, brackets.Ignores c → brackets.Balance cs → motive cs → motive (c :: cs))
    (enclosed : ∀ sub cs, brackets.Balance sub → brackets.Balance cs → motive sub → motive cs →
      motive ('[' :: (sub ++ ']' :: cs))) (h : brackets.Balance cs) : motive cs := by
  refine balance_induction nil other ?_ h
  intro o sub c cs ho _ hc hsub hcs ihsub ih
  rw [beq_iff_eq.mp ho, beq_iff_eq.mp hc]
  exact enclosed sub cs hsub hcs ihsub ih

theorem EnclosedBalance.depthAfter?_either (h : EnclosedBalance cs) (hcs : brackets.Balance cs)
    (depth : Nat) : either.depthAfter? depth cs = parentheses.depthAfter? depth cs := by
  refine brackets_induction (motive := fun cs => EnclosedBalance cs →
    ∀ depth, either.depthAfter? depth cs = parentheses.depthAfter? depth cs) ?nil ?other ?enclosed
      hcs h depth
  case nil => exact fun _ _ => rfl
  case other =>
    intro c cs hc _ ih h depth
    have hopens : either.opens c = parentheses.opens c := by
      rw [← Bool.or_false (parentheses.opens c), ← hc.1]
      rfl
    have hcloses : either.closes c = parentheses.closes c := by
      rw [← Bool.or_false (parentheses.closes c), ← hc.2]
      rfl
    simp only [depthAfter?, hopens, hcloses, ih h.of_cons]
  case enclosed =>
    intro sub cs hsub _ ihsub ih h depth
    have hparentheses := h.balance hsub
    have heither : either.Balance sub := (ihsub h.of_cons.append_of 0).trans hparentheses
    rw [depthAfter?_open rfl, heither.depthAfter?_append, depthAfter?_close_succ rfl rfl,
      depthAfter?_other (by decide), hparentheses.depthAfter?_append, depthAfter?_other (by decide)]
    exact ih h.of_cons.of_append.of_cons depth

theorem EnclosedBalance.awaited?_eq (h : EnclosedBalance cs) (hcs : brackets.Balance cs)
    {depth e : Nat} (hdepth : parentheses.depthAfter? depth cs = some e) (stack : List Char) :
    awaited? (List.replicate depth ')' ++ stack) cs = some (List.replicate e ')' ++ stack) := by
  refine brackets_induction (motive := fun cs => EnclosedBalance cs →
    ∀ depth e stack, parentheses.depthAfter? depth cs = some e →
      awaited? (List.replicate depth ')' ++ stack) cs = some (List.replicate e ')' ++ stack))
    ?nil ?other ?enclosed hcs h depth e stack hdepth
  case nil =>
    intro _ depth e stack hdepth
    cases hdepth
    rfl
  case other =>
    intro c cs hc _ ih h depth e stack hdepth
    by_cases hopens : c = '('
    · subst hopens
      rw [depthAfter?_open rfl] at hdepth
      exact ih h.of_cons (depth + 1) e stack hdepth
    · by_cases hcloses : c = ')'
      · subst hcloses
        cases depth with
        | zero => cases hdepth
        | succ depth =>
          rw [depthAfter?_close_succ rfl rfl] at hdepth
          rw [List.replicate_succ, List.cons_append, awaited?_close_cons (.inl rfl)]
          exact ih h.of_cons depth e stack hdepth
      · have hopens := beq_eq_false_iff_ne.mpr hopens
        have hcloses := beq_eq_false_iff_ne.mpr hcloses
        rw [depthAfter?_other ⟨hopens, hcloses⟩] at hdepth
        rw [awaited?_other ⟨Bool.or_eq_false_iff.mpr ⟨hopens, hc.1⟩,
          Bool.or_eq_false_iff.mpr ⟨hcloses, hc.2⟩⟩]
        exact ih h.of_cons depth e stack hdepth
  case enclosed =>
    intro sub cs hsub _ ihsub ih h depth e stack hdepth
    have hparentheses := h.balance hsub
    rw [depthAfter?_other (by decide), hparentheses.depthAfter?_append,
      depthAfter?_other (by decide)] at hdepth
    have hinside : awaited? (']' :: (List.replicate depth ')' ++ stack)) sub =
        some (']' :: (List.replicate depth ')' ++ stack)) := ihsub h.of_cons.append_of 0 0 _ hparentheses
    have hafter := ih h.of_cons.of_append.of_cons depth e stack hdepth
    have hopen : ∀ stack cs, awaited? stack ('[' :: cs) = awaited? (']' :: stack) cs := fun _ _ => rfl
    rw [hopen, awaited?_append, hinside, Option.bind_some, awaited?_close_cons (.inr rfl)]
    exact hafter

/-- While a bracket is open below `stack`, what is read above it changes the parentheses there as it
changes their count. -/
theorem awaited?_above (stack : List Char) {below rest : List Char} {e : Nat}
    (h : awaited? (stack ++ ']' :: below) cs = some rest)
    (hdepth : brackets.depthAfter? (stack.count ']') cs = some e) :
    ∃ above, rest = above ++ ']' :: below ∧ above.count ']' = e ∧
      parentheses.depthAfter? (stack.count ')') cs = some (above.count ')') := by
  have hparen : ∀ stack : List Char, (')' :: stack).count ']' = stack.count ']' := fun _ =>
    List.count_cons_of_ne (by decide)
  have hbracket : ∀ stack : List Char, (']' :: stack).count ')' = stack.count ')' := fun _ =>
    List.count_cons_of_ne (by decide)
  induction cs generalizing stack with
  | nil =>
    cases h
    cases hdepth
    exact ⟨stack, rfl, rfl, rfl⟩
  | cons c cs ih =>
    by_cases hc : either.Ignores c
    · rw [awaited?_other hc] at h
      rw [depthAfter?_other (brackets_ignores hc)] at hdepth
      rw [depthAfter?_other (parentheses_ignores hc)]
      exact ih stack h hdepth
    · rcases mark_of_not_ignores hc with rfl | rfl | rfl | rfl
      · have hih := ih (')' :: stack) h
        rw [hparen, List.count_cons_self] at hih
        rw [depthAfter?_other (by decide)] at hdepth
        rw [depthAfter?_open rfl]
        exact hih hdepth
      · have hih := ih (']' :: stack) h
        rw [hbracket, List.count_cons_self] at hih
        rw [depthAfter?_open rfl] at hdepth
        rw [depthAfter?_other (by decide)]
        exact hih hdepth
      · obtain ⟨tail, hstack, htail⟩ := awaited?_close_eq_some (.inl rfl) h
        cases stack with
        | nil => cases hstack
        | cons d stack =>
          cases hstack
          rw [hparen, depthAfter?_other (by decide)] at hdepth
          rw [List.count_cons_self, depthAfter?_close_succ rfl rfl]
          exact ih stack htail hdepth
      · obtain ⟨tail, hstack, htail⟩ := awaited?_close_eq_some (.inr rfl) h
        cases stack with
        | nil => cases hdepth
        | cons d stack =>
          cases hstack
          rw [List.count_cons_self, depthAfter?_close_succ rfl rfl] at hdepth
          rw [hbracket, depthAfter?_other (by decide)]
          exact ih stack htail hdepth

theorem Nested.enclosedBalance (h : Nested cs) : EnclosedBalance cs := by
  rintro before rest sub after rfl hclosing
  obtain ⟨rfl, hsub⟩ := closing?_eq_some_iff.mp hclosing
  rw [Nested, awaited?_append, Option.bind_eq_some_iff] at h
  obtain ⟨below, -, hrest⟩ := h
  have hopen : awaited? below ('[' :: (sub ++ ']' :: after)) =
      awaited? (']' :: below) (sub ++ ']' :: after) := rfl
  rw [hopen, awaited?_append, Option.bind_eq_some_iff] at hrest
  obtain ⟨stack, hinside, hafter⟩ := hrest
  obtain ⟨above, rfl, hcount, hparentheses⟩ := awaited?_above [] hinside hsub
  -- the closing bracket finds none of the parentheses of `sub` open
  obtain ⟨tail, habove, -⟩ := awaited?_close_eq_some (.inr rfl) hafter
  cases above with
  | nil => exact checkBalance_eq_ok_iff.mpr hparentheses
  | cons d above =>
    cases habove
    rw [List.count_cons_self] at hcount
    cases hcount

theorem nested_iff (hbrackets : brackets.Balance cs) (heither : either.Balance cs) :
    Nested cs ↔ EnclosedBalance cs := by
  refine ⟨Nested.enclosedBalance, fun h => ?_⟩
  have hparentheses : parentheses.Balance cs := (h.depthAfter?_either hbrackets 0).symm.trans heither
  exact h.awaited?_eq hbrackets hparentheses []

section Compile

variable {σ : Type} [Resolver σ] {s s' : σ}

theorem balance_of_valueLexemes {lexed : Scan} (h : valueLexemes cs = .ok lexed) :
    brackets.Balance cs ∧ either.Balance cs := by
  obtain ⟨-, expanded, hexpanded, hbalance, -⟩ := valueLexemes_eq_ok_iff.mp h
  obtain ⟨hsteps, hunbracketed⟩ := expandSubscripts_eq_ok_iff_steps.mp hexpanded
  have hbrackets : brackets.Balance expanded := by
    refine .of_ignored fun c hc => ?_
    exact Bool.or_eq_false_iff.mp (hunbracketed c hc)
  have henclosed : EnclosedBalance expanded := by
    rintro before rest sub after rfl -
    exact absurd (hunbracketed '[' (by simp)) (by decide)
  have heither : either.Balance expanded :=
    (henclosed.depthAfter?_either hbrackets 0).trans (checkBalance_eq_ok_iff.mp hbalance)
  clear h hexpanded hbalance hunbracketed henclosed
  induction hsteps using Relation.ReflTransGen.head_induction_on with
  | refl => exact ⟨hbrackets, heither⟩
  | head hstep _ ih =>
    exact ⟨(hstep.depthAfter?_brackets 0).symm.trans ih.1, (hstep.depthAfter?_either 0).symm.trans ih.2⟩

theorem balance_of_compile {text : String} {c : Compiled} (h : compile text s = (.ok c, s')) :
    brackets.Balance text.toList ∧ either.Balance text.toList := by
  cases hsplit : splitAssignment none text.toList with
  | none =>
    obtain ⟨hvalue, -⟩ := (compile_eq_ok_iff_of_not_split hsplit).mp h
    obtain ⟨lexed, hlexed, -⟩ := compileValue_eq_ok hvalue
    exact balance_of_valueLexemes hlexed
  | some parts =>
    obtain ⟨s₁, i, hvalue, hcheck, -⟩ := (compile_eq_ok_iff_of_split hsplit).mp h
    obtain ⟨lexed, hlexed, -⟩ := compileValue_eq_ok hvalue
    obtain ⟨hbrackets, heither⟩ := balance_of_valueLexemes hlexed
    have htarget : ∀ c ∈ parts.1, either.Ignores c := by
      intro c hc
      by_contra hmark
      have hpart : isWhite c = false → isNamePart c = true := isNamePart_of_checkTarget hcheck hc
      rcases mark_of_not_ignores hmark with rfl | rfl | rfl | rfl
      all_goals cases hpart (by decide)
    have htarget' := fun c hc => brackets_ignores (htarget c hc)
    rw [splitAssignment_eq_some hsplit, Balance, Balance,
      (Balance.of_ignored htarget).depthAfter?_append,
      (Balance.of_ignored htarget').depthAfter?_append, depthAfter?_other (by decide),
      depthAfter?_other (by decide)]
    exact ⟨hbrackets, heither⟩

/-- In a text that compiles the brackets balance, and so do all marks if the kinds are not told apart. The
marks of both kinds nest together exactly if the parentheses balance between every bracket and the one
that closes it. -/
theorem compiled_nested_iff {text : String} {c : Compiled} (h : compile text s = (.ok c, s')) :
    brackets.Balance text.toList ∧ either.Balance text.toList ∧
      (Nested text.toList ↔ ∀ before rest sub after, text.toList = before ++ '[' :: rest →
        closing? 0 rest = some (sub, after) → checkBalance sub = .ok ()) := by
  obtain ⟨hbrackets, heither⟩ := balance_of_compile h
  exact ⟨hbrackets, heither, nested_iff hbrackets heither⟩

set_option maxRecDepth 20000 in
theorem compiled_nested_iff_inside :
    brackets.Balance "a[(b)+c]".toList ∧ either.Balance "a[(b)+c]".toList ∧
      (Nested "a[(b)+c]".toList ↔ ∀ before rest sub after,
        "a[(b)+c]".toList = before ++ '[' :: rest → closing? 0 rest = some (sub, after) →
          checkBalance sub = .ok ()) := by
  have hcompile : compile "a[(b)+c]" (⟨#[("a", #[]), ("b", #[]), ("c", #[])], 0⟩ : DataTable) =
      (.ok ⟨⟨#[⟨.matrix 0, 0, some "a"⟩, ⟨.load 1, 1, some "b"⟩, ⟨.load 2, 2, some "c"⟩,
        ⟨.apply (.operator .add), 1, none⟩, ⟨.apply .lookup, 0, none⟩]⟩, none⟩,
        ⟨#[("a", #[]), ("b", #[]), ("c", #[])], 0⟩) := by
    cbv
  exact compiled_nested_iff hcompile

set_option maxRecDepth 20000 in
/-- The subscript is closed where the call that it stands for has been closed before. -/
theorem compiles_crossed :
    (∃ c, (compile "a[b)+(c]" (⟨#[("a", #[]), ("b", #[]), ("c", #[])], 0⟩ : DataTable)).1 = .ok c) ∧
      ¬ Nested "a[b)+(c]".toList := by
  have hcompile : compile "a[b)+(c]" (⟨#[("a", #[]), ("b", #[]), ("c", #[])], 0⟩ : DataTable) =
      (.ok ⟨⟨#[⟨.matrix 0, 0, some "a"⟩, ⟨.load 1, 1, some "b"⟩, ⟨.apply .lookup, 0, none⟩,
        ⟨.load 2, 3, some "c"⟩, ⟨.apply (.operator .add), 0, none⟩]⟩, none⟩,
        ⟨#[("a", #[]), ("b", #[]), ("c", #[])], 0⟩) := by
    cbv
  exact ⟨⟨_, congrArg Prod.fst hcompile⟩, by decide⟩

end Compile

end ChoiceModel.Expression
