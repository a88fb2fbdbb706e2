import ChoiceModel.Proofs.Expression.Scanning
import Mathlib.Algebra.BigOperators.Intervals
import Mathlib.Data.List.TakeWhile

/-! Blanks between lexemes. Where a text is widened by blanks in front of its lexemes, behind them or next to
blanks that it has, the same lexemes are cut off, each as many bytes further on as have been put in before
it. -/

namespace ChoiceModel.Expression

open Text

/-- The text `cs`, which starts at `start`, with `gap p` put in at every place `p`. -/
def widen (gap : Nat → List Char) (start : Nat) : List Char → List Char
  | [] => gap start
  | c :: cs => gap start ++ c :: widen gap (start + c.utf8Size) cs

/-- The bytes that are put in up to a place. -/
def inserted (gap : Nat → List Char) (p : Nat) : Nat := ∑ q ∈ Finset.range (p + 1), byteLength (gap q)

/-- The same lexemes, each further on by what is put in up to it. -/
def Scan.widened (gap : Nat → List Char) (lexed : Scan) : Scan where
  lexemes := lexed.lexemes.map fun l => { l with position := l.position + inserted gap l.position }
  stop := lexed.stop + inserted gap lexed.stop

/-- The places of a text that lie within no lexeme: a lexeme starts there, a blank stands there, or the text
ends. -/
inductive Scan.Between (lexed : Scan) (start : Nat) (cs : List Char) : Nat → Prop where
  | lexeme {l : Lexeme} : l ∈ lexed.lexemes → Between lexed start cs l.position
  | blank {before after : List Char} {c : Char} : cs = before ++ c :: after → isBlank c = true →
    Between lexed start cs (start + byteLength before)
  | stop : Between lexed start cs lexed.stop

/-- A text that goes on as another one does, or with a blank. -/
def Continues (rest rest' : List Char) : Prop :=
  rest'.head? = rest.head? ∨ rest'.head?.any isBlank = true

section Cut

variable {previous : Option Char} {c : Char} {rest rest' : List Char} {k : Cut}

theorem Continues.any_eq_false (h : Continues rest rest') {p : Char → Bool}
    (hp : ∀ c, isBlank c = true → p c = false) (hrest : rest.head?.any p = false) :
    rest'.head?.any p = false := by
  rcases h with h | h
  · rw [h]
    exact hrest
  · cases rest' with
    | nil => rfl
    | cons c rest' => exact hp c h

theorem spanNumber_of_head (last : Char) (h : rest.head?.any (fun c => !endsNumber last c) = false) :
    spanNumber last rest = ([], rest) := by
  cases rest with
  | nil => rfl
  | cons c rest =>
    rw [spanNumber_cons, if_pos]
    simpa using h

theorem spanNumber_append_of_continues (last : Char) {cs : List Char}
    (h : Continues (spanNumber last cs).2 rest') :
    spanNumber last ((spanNumber last cs).1 ++ rest') = ((spanNumber last cs).1, rest') := by
  have hblank : ∀ last c, isBlank c = true → (!endsNumber last c) = false := fun last c hc => by
    rw [endsNumber_of_isBlank last hc]
    rfl
  induction cs generalizing last with
  | nil => exact spanNumber_of_head last (h.any_eq_false (hblank last) rfl)
  | cons c cs ih =>
    rw [spanNumber_cons] at h ⊢
    cases hends : endsNumber last c with
    | true =>
      rw [hends, if_pos rfl] at h
      exact spanNumber_of_head last (h.any_eq_false (hblank last) (by simp [hends]))
    | false =>
      rw [hends, if_neg Bool.false_ne_true] at h
      rw [if_neg Bool.false_ne_true, List.cons_append, spanNumber_cons, hends,
        if_neg Bool.false_ne_true, ih c h]

theorem cutName_append_of_continues (h : Continues (cutName c rest).rest rest') :
    cutName c ((rest.takeWhile fun d => !isDelimiter d) ++ rest') =
      { cutName c rest with rest := rest' } := by
  have hpart : ∀ d ∈ rest.takeWhile fun d => !isDelimiter d, (!isDelimiter d) = true := by
    intro d hd
    have hnot := List.mem_takeWhile_imp hd
    exact hnot
  have hend : rest'.head?.any (fun d => !isDelimiter d) = false :=
    h.any_eq_false (fun d hd => by rw [isDelimiter_of_isBlank hd]; rfl) (head?_cutName c rest)
  rw [cutName, cutName, List.takeWhile_append_of_pos hpart, List.dropWhile_append_of_pos hpart]
  cases rest' with
  | nil => simp
  | cons d rest' =>
    have hd : isDelimiter d = true := by simpa using hend
    simp [hd]

/-- A symbol is one character, whatever follows, or makes a comparison with a `=` behind it. -/
theorem cutSymbol_cases (hc : isDelimiter c = true) :
    (∃ t, ∀ rest, cutSymbol c rest = ⟨t, [c], rest⟩) ∨
      ∃ t, ∀ rest, cutSymbol c ('=' :: rest) = ⟨t, [c, '='], rest⟩ ∧
        (rest.head?.any (· == '=') = false → cutSymbol c rest = ⟨(cutSymbol c []).token, [c], rest⟩) := by
  have hmem : c ∈ delimiters := List.contains_iff_mem.mp hc
  simp only [delimiters, List.mem_cons, List.not_mem_nil, or_false] at hmem
  rcases hmem with rfl | rfl | rfl | rfl | rfl | rfl | rfl | rfl | rfl | rfl | rfl | rfl | rfl | rfl | rfl | rfl
  all_goals first
    | exact .inl ⟨_, fun _ => rfl⟩
    | refine .inr ⟨_, fun rest => ⟨rfl, fun hrest => ?_⟩⟩
      unfold cutSymbol
      dsimp only
      repeat' split
      all_goals first
        | rfl
        | cases hrest

theorem cutSymbol_append_of_continues (hc : isDelimiter c = true)
    (h : Continues (cutSymbol c rest).rest rest') :
    ∃ more, (cutSymbol c rest).text = c :: more ∧
      cutSymbol c (more ++ rest') = { cutSymbol c rest with rest := rest' } := by
  rcases cutSymbol_cases hc with ⟨t, ht⟩ | ⟨t, ht⟩
  · refine ⟨[], ?_, ?_⟩
    · rw [ht]
    · rw [ht, List.nil_append, ht]
  · cases hequal : rest.head?.any (· == '=') with
    | true =>
      cases rest with
      | nil => cases hequal
      | cons d rest =>
        obtain rfl : d = '=' := beq_iff_eq.mp hequal
        refine ⟨['='], ?_, ?_⟩
        · rw [(ht rest).1]
        · rw [(ht rest).1]
          exact (ht rest').1
    | false =>
      rw [(ht rest).2 hequal] at h ⊢
      have hequal' := h.any_eq_false (p := (· == '=')) (fun d hd => ?_) hequal
      · exact ⟨[], rfl, (ht rest').2 hequal'⟩
      · rw [beq_eq_false_iff_ne]
        rintro rfl
        cases hd

theorem startsNegative_of_continues (h : Continues rest rest')
    (hrest : startsNegative previous rest = false) : startsNegative previous rest' = false := by
  rw [startsNegative_eq, Bool.and_eq_false_iff] at hrest ⊢
  refine hrest.imp_left fun hopens => h.any_eq_false (fun c hc => ?_) hopens
  exact (opens_of_isDelimiter (isDelimiter_of_isBlank hc)).1

/-- The sign of a number is one by the character behind it, which belongs to the number. -/
theorem startsNegative_spanNumber (last : Char) (h : startsNegative previous rest = true)
    (rest' : List Char) : startsNegative previous ((spanNumber last rest).1 ++ rest') = true := by
  rw [startsNegative_eq] at h ⊢
  cases rest with
  | nil => cases h
  | cons c rest =>
    have hopens : opensNumber c = true := (Bool.and_eq_true_iff.mp h).1
    have hends : endsNumber last c = false := by
      refine Bool.and_eq_false_imp.mpr fun hc => ?_
      rw [(opens_of_isDelimiter hc).1] at hopens
      cases hopens
    rw [spanNumber_cons, hends, if_neg Bool.false_ne_true]
    exact h

/-- The lexeme that is cut off a text is cut off any other that goes on behind it as the text does, or with a
blank. -/
theorem cut_append_of_continues (h : cut previous c rest = .ok k) (hrest : Continues k.rest rest') :
    ∃ more, k.text = c :: more ∧ cut previous c (more ++ rest') = .ok { k with rest := rest' } := by
  cases cut_eq_ok_iff.mp h with
  | number hopens hk =>
    obtain ⟨x, hread, rfl⟩ := cutNumber_eq_ok_iff.mp hk
    refine ⟨_, rfl, cut_eq_ok_iff.mpr (.number (hopens.imp_left fun hminus => ⟨hminus.1, ?_⟩) ?_)⟩
    · exact startsNegative_spanNumber c hminus.2 rest'
    · rw [cutNumber_eq_ok_iff, spanNumber_append_of_continues c hrest]
      exact ⟨x, hread, rfl⟩
  | name hname =>
    refine ⟨_, rfl, cut_eq_ok_iff.mpr ?_⟩
    rw [← cutName_append_of_continues hrest]
    exact .name hname
  | symbol hdelimiter hminus =>
    obtain ⟨more, htext, hsymbol⟩ := cutSymbol_append_of_continues hdelimiter hrest
    refine ⟨more, htext, cut_eq_ok_iff.mpr ?_⟩
    rw [← hsymbol]
    refine .symbol hdelimiter fun hc => ?_
    subst hc
    obtain rfl : [] = more := (List.cons.inj htext).2
    exact startsNegative_of_continues hrest (hminus rfl)

end Cut

/-! ### Scans -/

section Scan

variable {gap : Nat → List Char} {start : Nat} {previous : Option Char} {cs : List Char} {lexed : Scan}

theorem widen_append (hcs : ∀ p, start < p → p < start + byteLength cs → gap p = [])
    (hne : cs ≠ []) (rest : List Char) :
    widen gap start (cs ++ rest) = gap start ++ cs ++ widen gap (start + byteLength cs) rest := by
  induction cs generalizing start with
  | nil => exact absurd rfl hne
  | cons c cs ih =>
    have hc := c.utf8Size_pos
    rw [List.cons_append, widen, byteLength_cons, ← Nat.add_assoc]
    cases cs with
    | nil => simp
    | cons d cs =>
      have hd := d.utf8Size_pos
      rw [byteLength_cons, byteLength_cons] at hcs
      have hrest := @ih (start + c.utf8Size) (fun p hp hlt => hcs p (by omega) ?_) (by simp)
      · rw [hrest, hcs (start + c.utf8Size) (by omega) (by omega)]
        simp
      · rw [byteLength_cons] at hlt
        omega

theorem continues_append {bs rest : List Char} (hbs : ∀ c ∈ bs, isBlank c = true)
    (hrest : rest.head? = cs.head?) : Continues cs (bs ++ rest) := by
  cases bs with
  | nil => exact .inl hrest
  | cons b bs => exact .inr (hbs b List.mem_cons_self)

theorem continues_widen (hblank : ∀ p, ∀ c ∈ gap p, isBlank c = true) (start : Nat) (cs : List Char) :
    Continues cs (widen gap start cs) := by
  cases cs with
  | nil =>
    rw [widen, ← List.append_nil (gap start)]
    exact continues_append (hblank start) rfl
  | cons c cs => exact continues_append (hblank start) rfl

theorem sum_range_of_gap {m n : Nat} (hmn : m ≤ n) (h : ∀ q, m ≤ q → q < n → gap q = []) :
    ∑ q ∈ Finset.range n, byteLength (gap q) = ∑ q ∈ Finset.range m, byteLength (gap q) := by
  refine (Finset.sum_subset (Finset.range_mono hmn) fun q hq hm => ?_).symm
  rw [h q (Nat.le_of_not_lt fun hlt => hm (Finset.mem_range.mpr hlt)) (Finset.mem_range.mp hq)]
  rfl

theorem utf8Size_of_isBlank {c : Char} (h : isBlank c = true) : c.utf8Size = 1 := by
  simp only [isBlank, Bool.or_eq_true, beq_iff_eq] at h
  rcases h with (rfl | rfl) | rfl <;> rfl

theorem Scan.Between.of_blank {c : Char} {rest : List Char} {p : Nat}
    (h : lexed.Between start (c :: rest) p) (hp : start + c.utf8Size ≤ p) :
    lexed.Between (start + c.utf8Size) rest p := by
  have hc := c.utf8Size_pos
  cases h with
  | lexeme hl => exact .lexeme hl
  | stop => exact .stop
  | @blank before after d hcs hd =>
    cases before with
    | nil =>
      rw [byteLength_nil] at hp
      omega
    | cons c' before =>
      obtain ⟨rfl, hrest⟩ := List.cons.inj hcs
      rw [byteLength_cons, ← Nat.add_assoc]
      exact .blank hrest hd

theorem Scan.Between.of_lexeme {k : Cut} {l : Lexeme} {p : Nat}
    (h : Between { lexed with lexemes := l :: lexed.lexemes } start (k.text ++ k.rest) p)
    (htext : ∀ d ∈ k.text, isBlank d = false) :
    p = l.position ∨ lexed.Between (start + byteLength k.text) k.rest p := by
  cases h with
  | lexeme hl =>
    rcases List.mem_cons.mp hl with rfl | hl
    · exact .inl rfl
    · exact .inr (.lexeme hl)
  | stop => exact .inr .stop
  | @blank before after d hcs hd =>
    have hnot : d ∉ k.text := fun hmem => by
      rw [htext d hmem] at hd
      cases hd
    obtain ⟨before', rfl, hrest⟩ := exists_of_append_eq hnot hcs
    rw [byteLength_append, ← Nat.add_assoc]
    exact .inr (.blank hrest hd)

theorem Scans.le_of_between (h : Scans start previous cs lexed) {p : Nat}
    (hp : lexed.Between start cs p) : start ≤ p := by
  cases hp with
  | lexeme hl => exact h.le_position hl
  | blank _ _ => exact Nat.le_add_right start _
  | stop => exact h.le_stop

/-- A scan from a place on, moved by what is put in before that place. What is put in at the place itself is
passed over first. -/
theorem Scans.widen (hblank : ∀ p, ∀ c ∈ gap p, isBlank c = true) (h : Scans start previous cs lexed)
    (hgap : ∀ p, start ≤ p → gap p ≠ [] → lexed.Between start cs p) :
    Scans (start + ∑ q ∈ Finset.range start, byteLength (gap q)) previous (widen gap start cs)
      (lexed.widened gap) := by
  induction h with
  | nil position previous =>
    rw [Expression.widen, ← List.append_nil (gap position)]
    refine .blanks (hblank position) ?_
    rw [Nat.add_assoc, ← Finset.sum_range_succ]
    exact .nil _ previous
  | @blank position previous c rest lexed hc h ih =>
    rw [Expression.widen]
    refine .blanks (hblank position) (.blank hc ?_)
    have hrest := ih fun p hp hne => (hgap p (Nat.le_of_add_right_le hp) hne).of_blank hp
    rw [utf8Size_of_isBlank hc, Finset.sum_range_succ] at hrest
    rw [utf8Size_of_isBlank hc]
    convert hrest using 1
    omega
  | @lexeme position previous c rest k lexed hc hcut h ih =>
    -- what is put in stands in front of the lexeme, and the same lexeme is cut off behind it
    have htext : k.text ++ k.rest = c :: rest := cut_append hcut
    have hnonblank : ∀ d ∈ k.text, isBlank d = false := fun d => isBlank_of_mem_text hc hcut
    obtain ⟨more, hmore, hcut'⟩ := cut_append_of_continues hcut
      (continues_widen hblank (position + byteLength k.text) k.rest)
    have hpos : 0 < byteLength k.text := by
      rw [hmore, byteLength_cons]
      exact Nat.add_pos_left c.utf8Size_pos _
    -- nothing is put in within the lexeme
    have hplace : ∀ p, position ≤ p → gap p ≠ [] →
        p = position ∨ lexed.Between (position + byteLength k.text) k.rest p := by
      intro p hp hne
      have hbetween := hgap p hp hne
      rw [← htext] at hbetween
      exact hbetween.of_lexeme hnonblank
    have hwithin : ∀ p, position < p → p < position + byteLength k.text → gap p = [] := by
      intro p hp hlt
      refine Decidable.byContradiction fun hne => ?_
      rcases hplace p hp.le hne with heq | hbetween
      · exact hp.ne' heq
      · exact Nat.not_lt_of_le (h.le_of_between hbetween) hlt
    have hrest := ih fun p hp hne => (hplace p (Nat.le_of_add_right_le hp) hne).resolve_left (by omega)
    have hstart : position + ∑ q ∈ Finset.range position, byteLength (gap q) + byteLength (gap position) =
        position + inserted gap position := by
      rw [inserted, Finset.sum_range_succ, Nat.add_assoc]
    rw [sum_range_of_gap (m := position + 1) (by omega) hwithin, Nat.add_right_comm] at hrest
    rw [← htext, widen_append hwithin (cut_text_ne_nil hcut), List.append_assoc]
    refine .blanks (hblank position) ?_
    have hcons : k.text ++ Expression.widen gap (position + byteLength k.text) k.rest =
        c :: (more ++ Expression.widen gap (position + byteLength k.text) k.rest) := by
      rw [hmore, List.cons_append]
    rw [hstart, hcons]
    exact .lexeme hc hcut' hrest

/-- Blanks between lexemes, in front of them and behind them do not matter: whatever is put in at places that
lie within no lexeme, the same tokens are scanned, each at its place in the widened text. -/
theorem scan_widen (hblank : ∀ p, ∀ c ∈ gap p, isBlank c = true) (h : scan cs = .ok lexed)
    (hgap : ∀ p, gap p ≠ [] → lexed.Between 0 cs p) :
    scan (widen gap 0 cs) = .ok (lexed.widened gap) := by
  have hscans := (scanFrom_eq_ok_iff.mp h).widen hblank fun p _ => hgap p
  rw [Finset.range_zero, Finset.sum_empty] at hscans
  exact hscans.scanFrom_eq

/-- A space in front of the comparison, a zero character in front of the tab behind it, and a space in front of
the second name. -/
theorem scan_widen_comparison :
    ∃ (gap : Nat → List Char) (lexed : Scan), scan "a<=\tb".toList = .ok lexed ∧
      widen gap 0 "a<=\tb".toList = "a <=\x00\t b".toList ∧
      scan "a <=\x00\t b".toList = .ok (lexed.widened gap) ∧
      (lexed.widened gap).lexemes.map (·.position) = [0, 2, 7] := by
  let gap : Nat → List Char := fun p => if p = 1 then [' '] else if p = 3 then ['\x00'] else
    if p = 4 then [' '] else []
  have hleft : cut none 'a' ['<', '=', '\t', 'b'] = .ok ⟨.name "a", ['a'], ['<', '=', '\t', 'b']⟩ :=
    cut_eq_ok_iff.mpr (.name rfl)
  have hcompare : cut (some 'a') '<' ['=', '\t', 'b'] =
      .ok ⟨.symbol (.operator .le), ['<', '='], ['\t', 'b']⟩ :=
    cut_eq_ok_iff.mpr (.symbol rfl fun hc => by cases hc)
  have hright : cut (some '=') 'b' [] = .ok ⟨.name "b", ['b'], []⟩ := cut_eq_ok_iff.mpr (.name rfl)
  have hlexed : scan "a<=\tb".toList =
      .ok ⟨[⟨.name "a", 0⟩, ⟨.symbol (.operator .le), 1⟩, ⟨.name "b", 4⟩], 5⟩ :=
    (Scans.lexeme rfl hleft (.lexeme rfl hcompare (.blank rfl
      (.lexeme rfl hright (.nil 5 _))))).scanFrom_eq
  have hblank : ∀ p, ∀ c ∈ gap p, isBlank c = true := by
    intro p c hc
    have hcs : c = ' ' ∨ c = '\x00' := by
      dsimp only [gap] at hc
      split_ifs at hc <;> simp_all
    rcases hcs with rfl | rfl <;> rfl
  refine ⟨gap, _, hlexed, rfl, scan_widen hblank hlexed fun p hp => ?_, by decide⟩
  have hps : p = 1 ∨ p = 3 ∨ p = 4 := by
    dsimp only [gap] at hp
    split_ifs at hp <;> simp_all
  rcases hps with rfl | rfl | rfl
  · exact .lexeme (l := ⟨.symbol (.operator .le), 1⟩) (.tail _ (.head _))
  · exact @Scan.Between.blank _ _ _ ['a', '<', '='] ['b'] '\t' rfl rfl
  · exact .lexeme (l := ⟨.name "b", 4⟩) (.tail _ (.tail _ (.head _)))

end Scan

end ChoiceModel.Expression
