import ChoiceModel.Expression.Lexeme

/-! What a scan that succeeds has done: it has passed over blanks and cut off lexemes, each of which is a
number, a name or a symbol by what it starts with. -/

namespace ChoiceModel.Expression

open Text

/-- The characters that a number without a sign starts with. -/
def opensNumber (c : Char) : Bool := c.isDigit || c == '.'

/-- The characters that an operand can end with. -/
def closesOperand (c : Char) : Bool := c == ')' || !isDelimiter c

/-- Whether a number whose last character so far is `last` ends in front of `c`. -/
def endsNumber (last c : Char) : Bool :=
  isDelimiter c && !((c == '-' || c == '+') && (last == 'e' || last == 'E'))

theorem spanNumber_cons (last c : Char) (rest : List Char) : spanNumber last (c :: rest) =
    if endsNumber last c then ([], c :: rest)
    else (c :: (spanNumber c rest).1, (spanNumber c rest).2) := rfl

theorem startsNegative_eq (previous : Option Char) (rest : List Char) :
    startsNegative previous rest = (rest.head?.any opensNumber && !previous.any closesOperand) := by
  cases previous <;> cases rest <;> rfl

section Characters

variable {c : Char}

theorem toNat_of_isAlpha (h : c.isAlpha = true) :
    (65 ≤ c.toNat ∧ c.toNat ≤ 90) ∨ (97 ≤ c.toNat ∧ c.toNat ≤ 122) := by
  rcases Bool.or_eq_true_iff.mp h with hupper | hlower
  · exact .inl (of_decide_eq_true hupper)
  · obtain ⟨hle, hge⟩ := Bool.and_eq_true_iff.mp hlower
    exact .inr ⟨of_decide_eq_true hle, of_decide_eq_true hge⟩

theorem isDigit_of_isAlpha (h : c.isAlpha = true) : c.isDigit = false := by
  have hbounds := toNat_of_isAlpha h
  refine eq_false_of_ne_true fun hdigit => ?_
  have hle : c.toNat ≤ 57 := of_decide_eq_true (Bool.and_eq_true_iff.mp hdigit).2
  omega

theorem opensNumber_of_isNameStart (h : isNameStart c = true) : opensNumber c = false := by
  rw [isNameStart, Bool.or_eq_true, Bool.or_eq_true, beq_iff_eq, beq_iff_eq] at h
  rcases h with (halpha | rfl) | rfl
  · rw [opensNumber, isDigit_of_isAlpha halpha, Bool.false_or, beq_eq_false_iff_ne]
    rintro rfl
    cases halpha
  · rfl
  · rfl

/-- A delimiter starts neither a number nor a name, but for the sign of a number. -/
theorem opens_of_isDelimiter (h : isDelimiter c = true) :
    opensNumber c = false ∧ isNameStart c = false := by
  have hall : delimiters.all (fun d => !opensNumber d && !isNameStart d) = true := by decide
  have hc := List.all_eq_true.mp hall c (List.contains_iff_mem.mp h)
  simpa using hc

end Characters

/-- A first part of a list without the element `c` ends in front of it. -/
theorem exists_of_append_eq {α : Type} {mid left right rest : List α} {c : α} (hc : c ∉ mid)
    (h : mid ++ rest = left ++ c :: right) : ∃ left', left = mid ++ left' ∧ rest = left' ++ c :: right := by
  rcases List.append_eq_append_iff.mp h with ⟨left', hleft, hrest⟩ | ⟨gap, hgap, hcons⟩
  · exact ⟨left', hleft, hrest⟩
  · cases gap with
    | nil => exact ⟨[], by rw [hgap, List.append_nil, List.append_nil], hcons.symm⟩
    | cons d gap =>
      obtain rfl : c = d := (List.cons.inj hcons).1
      exact absurd (by rw [hgap]; exact List.mem_append_right _ List.mem_cons_self) hc

/-- The lexemes that can be cut off a text that starts with `c`. -/
inductive Cuts (previous : Option Char) (c : Char) (rest : List Char) : Cut → Prop where
  | number {k : Cut} : c = '-' ∧ startsNegative previous rest = true ∨ opensNumber c = true →
    cutNumber c rest = .ok k → Cuts previous c rest k
  | name : isNameStart c = true → Cuts previous c rest (cutName c rest)
  | symbol : isDelimiter c = true → (c = '-' → startsNegative previous rest = false) →
    Cuts previous c rest (cutSymbol c rest)

section Cut

variable {previous : Option Char} {c : Char} {rest : List Char} {k : Cut}

theorem cut_eq_ok_iff : cut previous c rest = .ok k ↔ Cuts previous c rest k := by
  constructor
  · intro h
    unfold cut at h
    split at h
    · rename_i hminus
      rw [Bool.and_eq_true, beq_iff_eq] at hminus
      exact .number (.inl hminus) h
    · rename_i hminus
      split at h
      · rename_i hopens
        exact .number (.inr hopens) h
      · split at h
        · rename_i hname
          cases h
          exact .name hname
        · split at h
          · rename_i hdelimiter
            cases h
            refine .symbol hdelimiter fun hc => ?_
            rw [Bool.and_eq_true, beq_iff_eq, not_and, Bool.not_eq_true] at hminus
            exact hminus hc
          · cases h
  · intro h
    unfold cut
    cases h with
    | number hopens hk =>
      rcases hopens with hminus | hopens
      · rw [if_pos (Bool.and_eq_true_iff.mpr ⟨beq_iff_eq.mpr hminus.1, hminus.2⟩)]
        exact hk
      · split
        · exact hk
        · exact (if_pos hopens).trans hk
    | name hname =>
      have hminus : (c == '-') = false := by
        rw [beq_eq_false_iff_ne]
        rintro rfl
        cases hname
      have hopens : (c.isDigit || c == '.') = false := opensNumber_of_isNameStart hname
      rw [hminus, Bool.false_and, if_neg Bool.false_ne_true, hopens, if_neg Bool.false_ne_true,
        if_pos hname]
    | symbol hdelimiter hminus =>
      have hsign : ¬ (c == '-' && startsNegative previous rest) = true := by
        rw [Bool.and_eq_true, beq_iff_eq, not_and, Bool.not_eq_true]
        exact hminus
      have hopens : (c.isDigit || c == '.') = false := (opens_of_isDelimiter hdelimiter).1
      rw [if_neg hsign, hopens, if_neg Bool.false_ne_true, (opens_of_isDelimiter hdelimiter).2,
        if_neg Bool.false_ne_true, if_pos hdelimiter]

theorem cutNumber_eq_ok_iff : cutNumber c rest = .ok k ↔
    ∃ x, Decimal.read (c :: (spanNumber c rest).1) = .ok x ∧
      k = ⟨.number x, c :: (spanNumber c rest).1, (spanNumber c rest).2⟩ := by
  rw [cutNumber]
  simp only
  cases Decimal.read (c :: (spanNumber c rest).1) with
  | ok x => simp [eq_comm]
  | error fault => simp

theorem token_cutSymbol (c : Char) (rest : List Char) : ∃ sym, (cutSymbol c rest).token = .symbol sym := by
  unfold cutSymbol
  simp only
  repeat' split
  all_goals exact ⟨_, rfl⟩

theorem text_cutSymbol (c : Char) (rest : List Char) :
    (cutSymbol c rest).text = [c] ∨ (cutSymbol c rest).text = [c, '='] := by
  unfold cutSymbol
  simp only
  repeat' split
  all_goals simp

/-- A name goes on up to the next delimiter. -/
theorem head?_cutName (c : Char) (rest : List Char) :
    (cutName c rest).rest.head?.any (fun d => !isDelimiter d) = false := by
  have hhead := List.head?_dropWhile_not (fun d => !isDelimiter d) rest
  rw [cutName]
  cases hrest : (rest.dropWhile fun d => !isDelimiter d).head? with
  | none => rfl
  | some d =>
    rw [hrest] at hhead
    simpa using hhead

theorem endsNumber_of_isBlank (last : Char) (h : isBlank c = true) : endsNumber last c = true := by
  have hsign : (c == '-' || c == '+') = false := by
    rw [Bool.or_eq_false_iff, beq_eq_false_iff_ne, beq_eq_false_iff_ne]
    constructor <;> rintro rfl <;> cases h
  rw [endsNumber, isDelimiter_of_isBlank h, hsign]
  rfl

theorem isBlank_of_mem_spanNumber {last d : Char} {cs : List Char} (hd : d ∈ (spanNumber last cs).1) :
    isBlank d = false := by
  induction cs generalizing last with
  | nil => cases hd
  | cons c cs ih =>
    rw [spanNumber_cons] at hd
    split at hd
    · cases hd
    · rename_i hends
      rcases List.mem_cons.mp hd with rfl | hd
      · exact eq_false_of_ne_true fun hblank => hends (endsNumber_of_isBlank last hblank)
      · exact ih hd

/-- No lexeme has a blank in it. -/
theorem isBlank_of_mem_text (hc : isBlank c = false) (h : cut previous c rest = .ok k) {d : Char}
    (hd : d ∈ k.text) : isBlank d = false := by
  cases cut_eq_ok_iff.mp h with
  | number _ hk =>
    obtain ⟨x, -, rfl⟩ := cutNumber_eq_ok_iff.mp hk
    rcases List.mem_cons.mp hd with rfl | hd
    · exact hc
    · exact isBlank_of_mem_spanNumber hd
  | name _ =>
    rcases List.mem_cons.mp hd with rfl | hd
    · exact hc
    · have hpart := List.all_eq_true.mp List.all_takeWhile d hd
      refine eq_false_of_ne_true fun hblank => ?_
      rw [isDelimiter_of_isBlank hblank] at hpart
      cases hpart
  | symbol _ _ =>
    rcases text_cutSymbol c rest with htext | htext
    · rw [htext, List.mem_singleton] at hd
      rw [hd]
      exact hc
    · rw [htext, List.mem_cons, List.mem_singleton] at hd
      rcases hd with rfl | rfl
      · exact hc
      · rfl

end Cut

/-- How a text is scanned from a position on, behind the last character of the lexeme before it. -/
inductive Scans : Nat → Option Char → List Char → Scan → Prop where
  | nil (position : Nat) (previous : Option Char) : Scans position previous [] ⟨[], position⟩
  | blank {position : Nat} {previous : Option Char} {c : Char} {rest : List Char} {lexed : Scan} :
    isBlank c = true → Scans (position + c.utf8Size) previous rest lexed →
    Scans position previous (c :: rest) lexed
  | lexeme {position : Nat} {previous : Option Char} {c : Char} {rest : List Char} {k : Cut}
    {lexed : Scan} : isBlank c = false → cut previous c rest = .ok k →
    Scans (position + byteLength k.text) k.text.getLast? k.rest lexed →
    Scans position previous (c :: rest) { lexed with lexemes := ⟨k.token, position⟩ :: lexed.lexemes }

section Scan

variable {position : Nat} {previous : Option Char} {cs : List Char} {lexed : Scan}

theorem scanFrom_eq_ok {c : Char} {rest : List Char} (hblank : isBlank c = false)
    (h : scanFrom position previous (c :: rest) = .ok lexed) :
    ∃ k tail, cut previous c rest = .ok k ∧
      scanFrom (position + byteLength k.text) k.text.getLast? k.rest = .ok tail ∧
      lexed = { tail with lexemes := ⟨k.token, position⟩ :: tail.lexemes } := by
  rw [scanFrom, if_neg (ne_true_of_eq_false hblank)] at h
  split at h
  · cases h
  · rename_i k hcut
    split at h
    · rename_i tail htail
      cases h
      exact ⟨k, tail, hcut, htail, rfl⟩
    · cases h

theorem scanFrom_cons {c : Char} {rest : List Char} {k : Cut} {tail : Scan}
    (hblank : isBlank c = false) (hcut : cut previous c rest = .ok k)
    (htail : scanFrom (position + byteLength k.text) k.text.getLast? k.rest = .ok tail) :
    scanFrom position previous (c :: rest) =
      .ok { tail with lexemes := ⟨k.token, position⟩ :: tail.lexemes } := by
  rw [scanFrom, if_neg (ne_true_of_eq_false hblank)]
  split
  · rename_i hfault
    cases hcut.symm.trans hfault
  · rename_i hcut'
    cases hcut.symm.trans hcut'
    rw [htail]

theorem Scans.of_scanFrom (h : scanFrom position previous cs = .ok lexed) :
    Scans position previous cs lexed := by
  -- on the length, since a cut takes any number of characters
  induction hlen : cs.length using Nat.strongRecOn generalizing position previous cs lexed with
  | ind n ih =>
    subst hlen
    cases cs with
    | nil =>
      rw [scanFrom] at h
      cases h
      exact .nil position previous
    | cons c rest =>
      cases hblank : isBlank c with
      | true =>
        rw [scanFrom, if_pos hblank] at h
        exact .blank hblank (ih rest.length (Nat.lt_succ_self _) h rfl)
      | false =>
        obtain ⟨k, tail, hcut, htail, rfl⟩ := scanFrom_eq_ok hblank h
        exact .lexeme hblank hcut (ih k.rest.length (cut_rest_length hcut) htail rfl)

theorem Scans.scanFrom_eq (h : Scans position previous cs lexed) :
    scanFrom position previous cs = .ok lexed := by
  induction h with
  | nil position previous => rw [scanFrom]
  | blank hblank _ ih =>
    rw [scanFrom, if_pos hblank]
    exact ih
  | lexeme hblank hcut _ ih => exact scanFrom_cons hblank hcut ih

theorem scanFrom_eq_ok_iff : scanFrom position previous cs = .ok lexed ↔
    Scans position previous cs lexed := ⟨.of_scanFrom, Scans.scanFrom_eq⟩

namespace Scans

theorem blanks {bs : List Char} (hbs : ∀ c ∈ bs, isBlank c = true)
    (h : Scans (position + byteLength bs) previous cs lexed) : Scans position previous (bs ++ cs) lexed := by
  induction bs generalizing position with
  | nil => exact h
  | cons b bs ih =>
    rw [byteLength_cons, ← Nat.add_assoc] at h
    exact .blank (hbs b List.mem_cons_self) (ih (fun c hc => hbs c (List.mem_cons_of_mem b hc)) h)

theorem le_stop (h : Scans position previous cs lexed) : position ≤ lexed.stop := by
  induction h with
  | nil position previous => exact Nat.le_refl position
  | blank _ _ ih => exact Nat.le_of_add_right_le ih
  | lexeme _ _ _ ih => exact Nat.le_of_add_right_le ih

theorem le_position (h : Scans position previous cs lexed) {l : Lexeme} (hl : l ∈ lexed.lexemes) :
    position ≤ l.position := by
  induction h with
  | nil position previous => cases hl
  | blank _ _ ih => exact Nat.le_of_add_right_le (ih hl)
  | lexeme _ _ _ ih =>
    rcases List.mem_cons.mp hl with rfl | hl
    · exact Nat.le_refl _
    · exact Nat.le_of_add_right_le (ih hl)

end Scans

end Scan

end ChoiceModel.Expression
