import ChoiceModel.Proofs.Expression.Scanning
import ChoiceModel.Proofs.Expression.Sentence
import Mathlib.Data.List.TakeDrop

/-! Negative literals. The scan tells by the last character of the lexeme before a minus whether the minus can
be the sign of a number. That is the same as to look at the lexeme itself: a number and a name end with no
delimiter, and of the symbols only `)` ends an operand. -/

namespace ChoiceModel.Expression

open Text

section Last

variable {p q : Char → Bool} {cs ds : List Char}

theorem any_getLast?_append (h : ds.getLast?.any p = true) : (cs ++ ds).getLast?.any p = true := by
  rw [List.getLast?_append]
  cases hds : ds.getLast? with
  | none =>
    rw [hds] at h
    cases h
  | some d =>
    rw [hds] at h
    exact h

theorem any_getLast?_of_forall (hne : cs ≠ []) (h : ∀ c ∈ cs, p c = true) :
    cs.getLast?.any p = true := by
  rw [List.getLast?_eq_some_getLast hne]
  exact h _ (List.getLast_mem hne)

theorem any_getLast?_mono (hpq : ∀ c, p c = true → q c = true) (h : cs.getLast?.any p = true) :
    cs.getLast?.any q = true := by
  cases hcs : cs.getLast? with
  | none =>
    rw [hcs] at h
    cases h
  | some c =>
    rw [hcs] at h
    exact hpq c h

end Last

/-! ### The last character of a number -/

section Number

variable {cs : List Char} {x : Float}

theorem exists_takeSign (cs : List Char) : ∃ sign, cs = sign ++ (Decimal.takeSign cs).2 := by
  unfold Decimal.takeSign
  split
  · exact ⟨['-'], rfl⟩
  · exact ⟨['+'], rfl⟩
  · exact ⟨[], rfl⟩

theorem opensNumber_of_isDigit {c : Char} (h : c.isDigit = true) : opensNumber c = true := by
  rw [opensNumber, h, Bool.true_or]

/-- What stands behind the digits of a number is nothing or ends with a digit. -/
theorem readExponent_eq_some {e : Int} (h : Decimal.readExponent cs = some e) :
    cs = [] ∨ cs.getLast?.any opensNumber = true := by
  cases cs with
  | nil => exact .inl rfl
  | cons c rest =>
    right
    rw [Decimal.readExponent] at h
    split at h
    · simp only at h
      split at h
      · cases h
      · rename_i hdigits
        rw [Bool.or_eq_true, not_or, Bool.not_eq_true', Bool.not_eq_false, List.all_eq_true] at hdigits
        obtain ⟨sign, hsign⟩ := exists_takeSign rest
        have hlast := any_getLast?_of_forall (fun hnil => hdigits.1 (List.isEmpty_iff.mpr hnil))
          fun d hd => opensNumber_of_isDigit (hdigits.2 d hd)
        rw [hsign, ← List.cons_append]
        exact any_getLast?_append hlast
    · cases h

theorem mem_takeWhile_isDigit {c : Char} (h : c ∈ cs.takeWhile Char.isDigit) : opensNumber c = true :=
  opensNumber_of_isDigit (List.all_eq_true.mp List.all_takeWhile c h)

/-- The text of a number without a sign: digits with an optional point, and an exponent. -/
theorem readUnsigned_eq_some (h : Decimal.readUnsigned cs = some x) :
    ∃ mantissa rest e, cs = mantissa ++ rest ∧ mantissa ≠ [] ∧ (∀ c ∈ mantissa, opensNumber c = true) ∧
      Decimal.readExponent rest = some e := by
  have hcs := (List.takeWhile_append_dropWhile (p := Char.isDigit) (l := cs)).symm
  rw [Decimal.readUnsigned, List.span_eq_takeWhile_dropWhile] at h
  simp only at h
  generalize cs.dropWhile Char.isDigit = rest at h hcs
  split at h
  · rename_i after
    split at h
    · cases h
    · obtain ⟨e, he, -⟩ := Option.map_eq_some_iff.mp h
      rw [List.span_eq_takeWhile_dropWhile] at he
      refine ⟨cs.takeWhile Char.isDigit ++ '.' :: after.takeWhile Char.isDigit, _, e, ?_, by simp, ?_, he⟩
      · rw [List.append_assoc, List.cons_append, List.takeWhile_append_dropWhile]
        exact hcs
      · intro c hc
        rcases List.mem_append.mp hc with hc | hc
        · exact mem_takeWhile_isDigit hc
        · rcases List.mem_cons.mp hc with rfl | hc
          · rfl
          · exact mem_takeWhile_isDigit hc
  · split at h
    · cases h
    · rename_i hempty
      obtain ⟨e, he, -⟩ := Option.map_eq_some_iff.mp h
      refine ⟨cs.takeWhile Char.isDigit, rest, e, hcs, fun hnil => hempty ?_,
        fun c hc => mem_takeWhile_isDigit hc, he⟩
      rw [hnil]
      rfl

/-- The letters that the words for infinity and for no number end with. -/
def endsWord (c : Char) : Bool := ['n', 'f', 'y'].contains c.toLower

theorem readWord_eq_some (h : Decimal.readWord cs = some x) : cs.getLast?.any endsWord = true := by
  have hlast : cs.getLast?.any endsWord =
      (String.ofList (cs.map Char.toLower)).toList.getLast?.any fun c => ['n', 'f', 'y'].contains c := by
    rw [String.toList_ofList, List.getLast?_map, Option.any_map]
    rfl
  rw [hlast]
  rw [Decimal.readWord] at h
  split at h
  · rename_i hword
    rw [hword]
    rfl
  · rename_i hword
    rw [hword]
    rfl
  · rename_i hword
    rw [hword]
    rfl
  · cases h

theorem not_isDelimiter_of_endsWord {c : Char} (h : endsWord c = true) : (!isDelimiter c) = true := by
  have hall : delimiters.all (fun d => !endsWord d) = true := by decide
  cases hc : isDelimiter c with
  | false => rfl
  | true =>
    have hnot := List.all_eq_true.mp hall c (List.contains_iff_mem.mp hc)
    rw [h] at hnot
    exact hnot

theorem not_isDelimiter_of_opensNumber {c : Char} (h : opensNumber c = true) : (!isDelimiter c) = true := by
  cases hc : isDelimiter c with
  | false => rfl
  | true =>
    rw [(opens_of_isDelimiter hc).1] at h
    cases h

/-- A number ends with a digit, a point or a letter, but no delimiter. -/
theorem getLast?_of_read (h : Decimal.read cs = .ok x) :
    cs.getLast?.any (fun c => !isDelimiter c) = true := by
  obtain ⟨sign, hsign⟩ := exists_takeSign cs
  have hbody : ∃ y, Decimal.readWord (Decimal.takeSign cs).2 = some y ∨
      Decimal.readUnsigned (Decimal.takeSign cs).2 = some y := by
    unfold Decimal.read at h
    split at h
    · cases h
    · split at h
      rename_i negative body htake
      rw [htake]
      split at h
      · rename_i y hy
        cases hword : Decimal.readWord body with
        | some w => exact ⟨w, .inl rfl⟩
        | none =>
          rw [hword] at hy
          exact ⟨y, .inr hy⟩
      · cases h
  rw [hsign]
  refine any_getLast?_append ?_
  obtain ⟨y, hword | hunsigned⟩ := hbody
  · exact any_getLast?_mono (fun c => not_isDelimiter_of_endsWord) (readWord_eq_some hword)
  · obtain ⟨mantissa, rest, e, hcs, hne, hmantissa, hrest⟩ := readUnsigned_eq_some hunsigned
    refine any_getLast?_mono (fun c => not_isDelimiter_of_opensNumber) ?_
    rw [hcs]
    rcases readExponent_eq_some hrest with rfl | hlast
    · rw [List.append_nil]
      exact any_getLast?_of_forall hne hmantissa
    · exact any_getLast?_append hlast

end Number

/-! ### The last character of a lexeme -/

section Cut

variable {previous : Option Char} {c : Char} {rest : List Char} {k : Cut}

theorem closesOperand_of_not_isDelimiter (c : Char) (h : (!isDelimiter c) = true) :
    closesOperand c = true := by
  rw [closesOperand, h, Bool.or_true]

theorem closesOperand_cutSymbol (hc : isDelimiter c = true) :
    (cutSymbol c rest).text.getLast?.any closesOperand = (cutSymbol c rest).token.endsOperand := by
  unfold cutSymbol
  dsimp only
  repeat' split
  all_goals first
    | rfl
    | simp_all [closesOperand, Token.endsOperand]

theorem endsOperand_eq_false_iff {t : Token} :
    t.endsOperand = false ↔ ∃ sym, t = .symbol sym ∧ sym ≠ .closeParen := by
  constructor
  · intro h
    cases t with
    | number x => cases h
    | name s => cases h
    | symbol sym =>
      refine ⟨sym, rfl, ?_⟩
      rintro rfl
      cases h
  · rintro ⟨sym, rfl, hsym⟩
    cases sym <;> first | rfl | exact absurd rfl hsym

/-- A lexeme ends an operand when its last character can. -/
theorem closesOperand_cut (h : cut previous c rest = .ok k) :
    k.text.getLast?.any closesOperand = k.token.endsOperand := by
  cases cut_eq_ok_iff.mp h with
  | number _ hk =>
    obtain ⟨x, hread, rfl⟩ := cutNumber_eq_ok_iff.mp hk
    exact any_getLast?_mono closesOperand_of_not_isDelimiter (getLast?_of_read hread)
  | name hname =>
    have hpart : ∀ d ∈ (cutName c rest).text, (!isDelimiter d) = true := by
      intro d hd
      rcases List.mem_cons.mp hd with rfl | hd
      · cases hdelimiter : isDelimiter d with
        | false => rfl
        | true =>
          rw [(opens_of_isDelimiter hdelimiter).2] at hname
          cases hname
      · exact List.all_eq_true.mp List.all_takeWhile d hd
    exact any_getLast?_mono closesOperand_of_not_isDelimiter
      (any_getLast?_of_forall (cut_text_ne_nil h) hpart)
  | symbol hdelimiter _ => exact closesOperand_cutSymbol hdelimiter

theorem minus_cut (h : cut previous '-' rest = .ok k) :
    (startsNegative previous rest = true → ∃ x, k.token = .number x) ∧
      (startsNegative previous rest = false → k.token = .symbol (.operator .sub)) := by
  cases cut_eq_ok_iff.mp h with
  | number hopens hk =>
    obtain ⟨x, -, rfl⟩ := cutNumber_eq_ok_iff.mp hk
    refine ⟨fun _ => ⟨x, rfl⟩, fun hnot => ?_⟩
    rcases hopens with hminus | hopens
    · rw [hminus.2] at hnot
      cases hnot
    · cases hopens
  | name hname => cases hname
  | symbol _ hminus =>
    refine ⟨fun hnegative => ?_, fun _ => rfl⟩
    rw [hminus rfl] at hnegative
    cases hnegative

end Cut

section Scan

variable {position : Nat} {previous : Option Char} {cs : List Char} {lexed : Scan}
  {before after : List Lexeme} {l : Lexeme}

/-- Where a lexeme is cut off, the text before it ends as the lexeme before it does. -/
theorem Scans.exists_cut (h : Scans position previous cs lexed) (hl : lexed.lexemes = before ++ l :: after) :
    ∃ front c rest k last, cs = front ++ c :: rest ∧ position + byteLength front = l.position ∧
      cut last c rest = .ok k ∧ k.token = l.token ∧
      last.any closesOperand = before.getLast?.elim (previous.any closesOperand) (·.token.endsOperand) := by
  induction h generalizing before with
  | nil position previous => cases before <;> cases hl
  | @blank position previous c rest lexed _ _ ih =>
    obtain ⟨front, d, rest', k, last, hrest, hposition, hcut⟩ := ih hl
    refine ⟨c :: front, d, rest', k, last, ?_, ?_, hcut⟩
    · rw [hrest, List.cons_append]
    · rw [byteLength_cons, ← hposition, Nat.add_assoc]
  | @lexeme position previous c rest k lexed _ hcut _ ih =>
    cases before with
    | nil =>
      obtain ⟨rfl, -⟩ := List.cons.inj hl
      exact ⟨[], c, rest, k, previous, rfl, rfl, hcut, rfl, rfl⟩
    | cons p before =>
      obtain ⟨rfl, htail⟩ := List.cons.inj hl
      obtain ⟨front, d, rest', k', last, hrest, hposition, hcut', htoken, hlast⟩ := ih htail
      -- the text in front of the rest ends as this lexeme does
      refine ⟨k.text ++ front, d, rest', k', last, ?_, ?_, hcut', htoken, ?_⟩
      · rw [← cut_append hcut, hrest, List.append_assoc]
      · rw [byteLength_append, ← hposition, Nat.add_assoc]
      · rw [hlast, closesOperand_cut hcut, List.getLast?_cons]
        cases before.getLast? <;> rfl

/-- The lexeme that starts at a minus is a number exactly when the next character is a digit or a point and no
operand ends with the lexeme before it. Otherwise, and so directly behind a number, a name or a `)`, it is the
operator. -/
theorem scan_minus (h : scan cs = .ok lexed) (hl : lexed.lexemes = before ++ l :: after)
    {front rest : List Char} (hcs : cs = front ++ '-' :: rest)
    (hfront : byteLength front = l.position) :
    ((∃ x, l.token = .number x) ↔ rest.head?.any opensNumber = true ∧
      ∀ p ∈ before.getLast?, ∃ sym, p.token = .symbol sym ∧ sym ≠ .closeParen) ∧
    ((∀ x, l.token ≠ .number x) → l.token = .symbol (.operator .sub)) ∧
    ((∃ p ∈ before.getLast?, p.token.endsOperand = true) → l.token = .symbol (.operator .sub)) := by
  obtain ⟨front', c, rest', k, last, hcs', hposition, hcut, htoken, hlast⟩ :=
    (scanFrom_eq_ok_iff.mp h).exists_cut hl
  rw [Nat.zero_add] at hposition
  obtain ⟨rfl, hrest⟩ := append_inj_of_byteLength (hcs'.symm.trans hcs) (hposition.trans hfront.symm)
  obtain ⟨rfl, rfl⟩ := List.cons.inj hrest
  have hsign : startsNegative last rest' = true ↔ rest'.head?.any opensNumber = true ∧
      ∀ p ∈ before.getLast?, ∃ sym, p.token = .symbol sym ∧ sym ≠ .closeParen := by
    rw [startsNegative_eq, Bool.and_eq_true, Bool.not_eq_true', hlast]
    refine and_congr_right fun _ => ?_
    cases before.getLast? with
    | none => simp
    | some p =>
      have hsymbol : p.token.endsOperand = false ↔ ∃ sym, p.token = .symbol sym ∧ sym ≠ .closeParen :=
        endsOperand_eq_false_iff
      simpa using hsymbol
  rw [← hsign, ← htoken]
  have hnumber := minus_cut hcut
  refine ⟨⟨fun ⟨x, hx⟩ => ?_, hnumber.1⟩, fun hx => ?_, fun ⟨p, hp, hends⟩ => ?_⟩
  · refine Decidable.byContradiction fun hnegative => ?_
    rw [hnumber.2 (eq_false_of_ne_true hnegative)] at hx
    cases hx
  · refine hnumber.2 (eq_false_of_ne_true fun hnegative => ?_)
    obtain ⟨x, hk⟩ := hnumber.1 hnegative
    exact hx x hk
  · refine hnumber.2 (eq_false_of_ne_true fun hnegative => ?_)
    have hnot := endsOperand_eq_false_iff.mpr ((hsign.mp hnegative).2 p hp)
    rw [hends] at hnot
    cases hnot

/-- The minus behind the `*` is a sign. -/
theorem scan_minus_factor : ∃ lexed before l, scan "a*-1".toList = .ok lexed ∧
    lexed.lexemes = before ++ [l] ∧ l.position = 2 ∧ ∃ x, l.token = .number x := by
  obtain ⟨x, hread⟩ : ∃ x, Decimal.read ['-', '1'] = .ok x := ⟨_, rfl⟩
  have hname : cut none 'a' ['*', '-', '1'] = .ok ⟨.name "a", ['a'], ['*', '-', '1']⟩ :=
    cut_eq_ok_iff.mpr (.name rfl)
  have hfactor : cut (some 'a') '*' ['-', '1'] = .ok ⟨.symbol (.operator .mul), ['*'], ['-', '1']⟩ :=
    cut_eq_ok_iff.mpr (.symbol rfl fun hc => by cases hc)
  have hsign : cut (some '*') '-' ['1'] = .ok ⟨.number x, ['-', '1'], []⟩ :=
    cut_eq_ok_iff.mpr (.number (.inl ⟨rfl, rfl⟩) (cutNumber_eq_ok_iff.mpr ⟨x, hread, rfl⟩))
  have hscans : Scans 0 none "a*-1".toList
      ⟨[⟨.name "a", 0⟩, ⟨.symbol (.operator .mul), 1⟩, ⟨.number x, 2⟩], 4⟩ :=
    .lexeme rfl hname (.lexeme rfl hfactor (.lexeme rfl hsign (.nil 4 _)))
  have hsplit : [⟨.name "a", 0⟩, ⟨.symbol (.operator .mul), 1⟩, ⟨.number x, 2⟩] =
      [⟨.name "a", 0⟩, ⟨.symbol (.operator .mul), 1⟩] ++ (⟨.number x, 2⟩ :: [] : List Lexeme) := rfl
  have htext : "a*-1".toList = ['a', '*'] ++ '-' :: ['1'] := rfl
  have hnumber := (scan_minus hscans.scanFrom_eq hsplit htext rfl).1
  refine ⟨_, _, _, hscans.scanFrom_eq, hsplit, rfl, hnumber.mpr ⟨rfl, ?_⟩⟩
  rintro p ⟨⟩
  exact ⟨.operator .mul, rfl, fun hclose => by cases hclose⟩

end Scan

end ChoiceModel.Expression
