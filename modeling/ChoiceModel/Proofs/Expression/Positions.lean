import ChoiceModel.Proofs.Expression.Unknown
import ChoiceModel.Proofs.Expression.Unreadable
import ChoiceModel.Store.Scalars

/-! Where the name stands that an unknown variable is reported with. Its position counts the bytes of the
value alone, in which every subscript up to the name has become a call: both the bytes in front of the
value and the six bytes that each of these calls adds set it apart from the place of the name in the text. -/

namespace ChoiceModel.Expression

open Text Store

section Occurrence

variable {name other front before rest cs ds : List Char}

/-- The part of a name that ends the text, if any, has no beginning of a name in it. -/
def StartsAnew (front : List Char) : Prop :=
  ∀ c ∈ front.reverse.takeWhile isNamePart, isNameStart c = false

/-- A name stands in a text behind `front` and in front of `rest`, as a whole. -/
structure Stands (name cs front rest : List Char) : Prop where
  text : cs = front ++ name ++ rest
  anew : StartsAnew front
  ends : rest.head?.any isNamePart = false

/-- The bytes in front of a name in the expansion of a text, in which the name stands between `front` and
`rest`: each subscript that opens up to the name has become a longer call. -/
def expandedOffset (front rest : List Char) : Nat :=
  byteLength front + 6 * (front ++ rest.take 1).count '['

theorem EndsName.startsAnew (h : EndsName front) : StartsAnew front := by
  intro c hc
  cases hfront : front.reverse with
  | nil =>
    rw [hfront] at hc
    cases hc
  | cons x xs =>
    have hx : isNamePart x = false := h x (by rw [← List.head?_reverse, hfront]; rfl)
    rw [hfront, List.takeWhile_cons_of_neg (ne_true_of_eq_false hx)] at hc
    cases hc

theorem startsAnew_separated {x : Char} (hx : isNamePart x = false) (cs front : List Char) :
    StartsAnew (cs ++ x :: front) ↔ StartsAnew front := by
  have htake : (cs ++ x :: front).reverse.takeWhile isNamePart = front.reverse.takeWhile isNamePart := by
    rw [List.reverse_append, List.reverse_cons, List.append_assoc, List.takeWhile_append]
    split
    · rw [List.singleton_append, List.takeWhile_cons_of_neg (ne_true_of_eq_false hx), List.append_nil]
      rename_i hall
      exact ((List.takeWhile_prefix _).eq_of_length hall).symm
    · rfl
  rw [StartsAnew, StartsAnew, htake]

theorem mem_takeWhile_reverse_append {c : Char} (h : ∀ d ∈ ds, isNamePart d = true) (hc : c ∈ ds) :
    c ∈ (cs ++ ds).reverse.takeWhile isNamePart := by
  rw [List.reverse_append, List.takeWhile_append_of_pos fun d hd => h d (List.mem_reverse.mp hd)]
  exact List.mem_append_left _ (List.mem_reverse.mpr hc)

/-- Where a name at the end of a text begins is up to the text. -/
theorem name_eq_of_append_eq (hname : IsName name) (hother : IsName other) (hfront : StartsAnew front)
    (hbefore : StartsAnew before) (h : front ++ name = before ++ other) :
    front = before ∧ name = other := by
  have hnil : ∀ {gap name other before : List Char}, IsName name → name = gap ++ other →
      StartsAnew (before ++ gap) → gap = [] := by
    intro gap name other before hname heq hanew
    cases gap with
    | nil => rfl
    | cons c gap =>
      have hpart : ∀ d ∈ c :: gap, isNamePart d = true := fun d hd =>
        hname.part d (heq ▸ List.mem_append_left _ hd)
      have hstart := hname.start
      rw [heq, List.cons_append, List.head?_cons, Option.any_some] at hstart
      rw [hanew c (mem_takeWhile_reverse_append hpart List.mem_cons_self)] at hstart
      cases hstart
  rcases List.append_eq_append_iff.mp h with ⟨gap, hgap, hsplit⟩ | ⟨gap, hgap, hsplit⟩
  · obtain rfl := hnil hname hsplit (hgap ▸ hbefore)
    exact ⟨by rw [hgap, List.append_nil], hsplit⟩
  · obtain rfl := hnil hother hsplit (hgap ▸ hfront)
    exact ⟨by rw [hgap, List.append_nil], hsplit.symm⟩

theorem eq_nil_of_ends (hpart : ∀ c ∈ cs, isNamePart c = true)
    (hends : (cs ++ ds).head?.any isNamePart = false) : cs = [] := by
  cases cs with
  | nil => rfl
  | cons c cs =>
    rw [List.cons_append, List.head?_cons, Option.any_some, hpart c List.mem_cons_self] at hends
    cases hends

/-- A name in a text stands on one side of a character that belongs to no name. -/
theorem append_eq_append_cons {x : Char} (hx : x ∉ name) (h : front ++ name ++ rest = cs ++ x :: ds) :
    (∃ rest', cs = front ++ name ++ rest' ∧ rest = rest' ++ x :: ds) ∨
      ∃ front', front = cs ++ x :: front' ∧ ds = front' ++ name ++ rest := by
  rcases List.append_eq_append_iff.mp h with ⟨rest', hcs, hrest⟩ | ⟨gap, hgap, hcons⟩
  · exact .inl ⟨rest', hcs, hrest⟩
  · cases gap with
    | nil => exact .inl ⟨[], by rw [hgap, List.append_nil, List.append_nil], hcons.symm⟩
    | cons d gap =>
      obtain ⟨rfl, rfl⟩ := List.cons.inj hcons
      rcases List.append_eq_append_iff.mp hgap with ⟨gap', hcs, hname⟩ | ⟨gap', hfront, hcons'⟩
      · exact absurd (hname ▸ List.mem_append_right _ List.mem_cons_self) hx
      · cases gap' with
        | nil =>
          rw [List.nil_append] at hcons'
          exact absurd (hcons' ▸ List.mem_cons_self) hx
        | cons e front' =>
          obtain ⟨rfl, rfl⟩ := List.cons.inj hcons'
          exact .inr ⟨front', hfront, rfl⟩

end Occurrence

section Expansion

variable {name front rest cs ds : List Char}

theorem nameBefore_spec {left before name : List Char} (h : nameBefore left = (before, name))
    (hne : name ≠ []) : StartsAnew before ∧ IsName name := by
  rw [nameBefore] at h
  obtain ⟨rfl, rfl⟩ := Prod.mk.inj h
  have hskipped : StartsAnew
      ((left.takeWhile isNamePart).reverse.takeWhile fun c => !isNameStart c) := by
    intro c hc
    have hstart := List.mem_takeWhile_imp (List.mem_reverse.mp ((List.takeWhile_sublist _).mem hc))
    simpa using hstart
  refine ⟨?_, ?_, fun c hc => ?_⟩
  · cases hleft : left.dropWhile isNamePart with
    | nil => exact hskipped
    | cons x xs =>
      have hx : isNamePart x = false := by
        have hhead := List.head?_dropWhile_not isNamePart left
        rw [hleft] at hhead
        exact hhead
      rw [List.reverse_cons, List.append_assoc, List.singleton_append, startsAnew_separated hx]
      exact hskipped
  · have hhead := List.head?_dropWhile_not (fun c => !isNameStart c) (left.takeWhile isNamePart).reverse
    cases hname : (left.takeWhile isNamePart).reverse.dropWhile fun c => !isNameStart c with
    | nil => exact absurd hname hne
    | cons c name =>
      rw [hname] at hhead
      simpa using hhead
  · exact List.mem_takeWhile_imp (List.mem_reverse.mp ((List.dropWhile_sublist _).mem hc))

theorem lastOpening?_spec {left right : List Char} {o : Opening}
    (h : lastOpening? left right = some o) : StartsAnew o.before ∧ IsName o.name := by
  induction right generalizing left with
  | nil => cases h
  | cons c right ih =>
    rw [lastOpening?_cons, Option.or_eq_some_iff] at h
    rcases h with h | ⟨-, h⟩
    · exact ih h
    · rw [openingAt?] at h
      split at h
      · split at h
        · cases h
        · rename_i hne hname
          cases h
          exact nameBefore_spec hname hne
      · cases h

theorem Expands.exists_call (h : Expands cs ds) : ∃ before base sub after,
    cs = before ++ base ++ '[' :: (sub ++ ']' :: after) ∧ ds = lookupCall before base sub after ∧
      StartsAnew before ∧ IsName base := by
  obtain @⟨o, sub, after, hopening, hclosing⟩ := h
  obtain ⟨hafter, -⟩ := closing?_eq_some_iff.mp hclosing
  refine ⟨o.before, o.name, sub, after, ?_, rfl, lastOpening?_spec hopening⟩
  rw [← hafter]
  exact eq_of_lastOpening? hopening

/-- A name that stands in a text behind a step of the expansion stands in the text before it, at the same
offset of the expansion. -/
theorem Expands.stands (h : Expands cs ds) (hname : IsName name) (harray : name ≠ "ARRAY".toList)
    (hstands : Stands name ds front rest) :
    ∃ front' rest', Stands name cs front' rest' ∧
      expandedOffset front' rest' = expandedOffset front rest := by
  obtain ⟨before, base, sub, after, rfl, rfl, hbefore, hbase⟩ := h.exists_call
  have hnot : ∀ {x}, isNamePart x = false → x ∉ name := by
    intro x hx hmem
    rw [hname.part x hmem] at hx
    cases hx
  have hcall : lookupCall before base sub after =
      (before ++ "ARRAY".toList) ++ '(' :: (base ++ ',' :: (sub ++ ')' :: after)) := by
    simp [lookupCall]
  have hpart : ∀ c ∈ "ARRAY".toList, isNamePart c = true := List.all_eq_true.mp (by decide)
  have hfunction : IsName "ARRAY".toList := ⟨by decide, hpart⟩
  have hsize : byteLength "ARRAY".toList = 5 := by decide
  have hcount : "ARRAY".toList.count '[' = 0 := by decide
  have hbytes : '('.utf8Size = 1 ∧ ')'.utf8Size = 1 ∧ '['.utf8Size = 1 ∧ ']'.utf8Size = 1 ∧
      ','.utf8Size = 1 := ⟨rfl, rfl, rfl, rfl, rfl⟩
  obtain ⟨htext, hanew, hends⟩ := hstands
  rw [hcall] at htext
  clear hcall
  generalize "ARRAY".toList = function at *
  rcases append_eq_append_cons (hnot (by decide)) htext.symm with
    ⟨rest', hfirst, rfl⟩ | ⟨front₁, rfl, hbehind⟩
  · -- in front of the call, since the only other name that ends there is the function
    rcases List.append_eq_append_iff.mp hfirst with ⟨gap, hgap, hsplit⟩ | ⟨gap, rfl, rfl⟩
    · obtain rfl := eq_nil_of_ends (fun c hc => hpart c (hsplit ▸ List.mem_append_right _ hc)) hends
      rw [List.append_nil] at hsplit
      subst hsplit
      exact absurd (name_eq_of_append_eq hname hfunction hanew hbefore hgap).2 harray
    · cases gap with
      | nil =>
        obtain rfl := eq_nil_of_ends hpart hends
        cases hfunction.start
      | cons c gap =>
        refine ⟨front, c :: gap ++ base ++ '[' :: (sub ++ ']' :: after), ⟨?_, hanew, hends⟩, ?_⟩
        · simp
        · simp [expandedOffset]
  · rw [startsAnew_separated (by decide)] at hanew
    rcases append_eq_append_cons (hnot (by decide)) hbehind.symm with
      ⟨rest', hfirst, rfl⟩ | ⟨front₂, rfl, hargument⟩
    · -- the base of the subscript
      obtain rfl := eq_nil_of_ends (fun c hc => hbase.part c (hfirst ▸ List.mem_append_right _ hc)) hends
      rw [List.append_nil] at hfirst
      have hstart : StartsAnew [] := fun _ hlast => by cases hlast
      obtain ⟨rfl, rfl⟩ := name_eq_of_append_eq hbase hname hstart hanew hfirst
      refine ⟨before, '[' :: (sub ++ ']' :: after), ⟨rfl, hbefore, rfl⟩, ?_⟩
      simp [expandedOffset, hsize, hcount, hbytes]
      omega
    · rw [startsAnew_separated (by decide)] at hanew
      rcases append_eq_append_cons (hnot (by decide)) hargument.symm with
        ⟨rest', rfl, rfl⟩ | ⟨front₃, rfl, rfl⟩
      · -- within the subscript
        refine ⟨before ++ base ++ '[' :: front₂, rest' ++ ']' :: after, ⟨by simp, ?_, ?_⟩, ?_⟩
        · exact (startsAnew_separated (by decide) _ _).mpr hanew
        · cases rest' with
          | nil => rfl
          | cons c rest' => exact hends
        · have htake : ((rest' ++ ']' :: after).take 1).count '[' =
              ((rest' ++ ')' :: after).take 1).count '[' := by
            cases rest' <;> rfl
          simp [expandedOffset, hsize, hcount, hbytes, htake]
          omega
      · -- behind the subscript
        rw [startsAnew_separated (by decide)] at hanew
        refine ⟨before ++ base ++ '[' :: (sub ++ ']' :: front₃), rest, ⟨by simp, ?_, hends⟩, ?_⟩
        · rw [startsAnew_separated (by decide), startsAnew_separated (by decide)]
          exact hanew
        · simp [expandedOffset, hsize, hcount, hbytes]
          omega

/-- A name that stands in the expansion of a text stands in the text itself. -/
theorem stands_of_expandSubscripts (h : expandSubscripts cs = .ok ds) (hname : IsName name)
    (harray : name ≠ "ARRAY".toList) (hstands : Stands name ds front rest) :
    ∃ front' rest', Stands name cs front' rest' ∧ expandedOffset front' rest' = byteLength front := by
  obtain ⟨hsteps, hunbracketed⟩ := expandSubscripts_eq_ok_iff_steps.mp h
  have hcount : (front ++ rest.take 1).count '[' = 0 := by
    rw [List.count_eq_zero]
    intro hmem
    have hds : '[' ∈ ds := by
      rw [hstands.text, List.mem_append, List.mem_append]
      rcases List.mem_append.mp hmem with hmem | hmem
      · exact .inl (.inl hmem)
      · exact .inr ((List.take_sublist _ _).mem hmem)
    exact absurd (hunbracketed _ hds) (by decide)
  have hoffset : expandedOffset front rest = byteLength front := by
    rw [expandedOffset, hcount, Nat.mul_zero, Nat.add_zero]
  rw [← hoffset]
  clear h hcount hoffset hunbracketed
  induction hsteps using Relation.ReflTransGen.head_induction_on with
  | refl => exact ⟨front, rest, hstands, rfl⟩
  | head hstep _ ih =>
    obtain ⟨front₁, rest₁, hstands₁, hoffset₁⟩ := ih
    obtain ⟨front₂, rest₂, hstands₂, hoffset₂⟩ := hstep.stands hname harray hstands₁
    exact ⟨front₂, rest₂, hstands₂, hoffset₂.trans hoffset₁⟩

end Expansion

section Lexemes

variable {c : Char} {front rest cs : List Char} {previous : Option Char} {position : Nat} {k : Cut}

theorem isNamePart_of_isNameStart (h : isNameStart c = true) : isNamePart c = true := by
  have hmarks : (delimiters ++ ['[', ']']).all (fun d => !isNameStart d) = true := by decide
  refine Bool.not_eq_false _ ▸ fun hpart => ?_
  have hmem : c ∈ delimiters ++ ['[', ']'] := by
    simpa [isNamePart, isDelimiter, isBracket, imp_iff_not_or] using hpart
  have hmark := List.all_eq_true.mp hmarks c hmem
  rw [h] at hmark
  cases hmark

theorem isNamePart_of_cutName {d : Char} (hc : isNameStart c = true) (hd : d ∈ (cutName c rest).text)
    (hbracket : isBracket d = false) : isNamePart d = true := by
  rcases List.mem_cons.mp hd with rfl | hd
  · exact isNamePart_of_isNameStart hc
  · have hdelimiter := List.mem_takeWhile_imp hd
    simp [isNamePart, hbracket] at hdelimiter ⊢
    exact hdelimiter

theorem isNamePart_behind_spanNumber (last : Char) (cs : List Char) :
    (spanNumber last cs).2.head?.any isNamePart = false := by
  induction cs generalizing last with
  | nil => rfl
  | cons c cs ih =>
    rw [spanNumber_cons]
    split
    · rename_i hends
      rw [endsNumber, Bool.and_eq_true] at hends
      simp [isNamePart, hends.1]
    · exact ih c

theorem isNamePart_behind_cutName (c : Char) (rest : List Char) :
    (cutName c rest).rest.head?.any isNamePart = false := by
  have hhead := head?_cutName c rest
  cases hrest : (cutName c rest).rest.head? with
  | none => rfl
  | some d =>
    rw [hrest] at hhead
    have hd : (!isDelimiter d) = false := hhead
    rw [Option.any_some, isNamePart, hd, Bool.false_and]

/-- A cut ends where no name goes on: behind a symbol, or in front of the next delimiter. -/
theorem cut_ends (h : cut previous c rest = .ok k) :
    EndsName k.text ∨ k.rest.head?.any isNamePart = false := by
  cases cut_eq_ok_iff.mp h with
  | number _ hk =>
    obtain ⟨x, -, rfl⟩ := cutNumber_eq_ok_iff.mp hk
    exact .inr (isNamePart_behind_spanNumber c rest)
  | name _ => exact .inr (isNamePart_behind_cutName c rest)
  | symbol hc _ =>
    have hpart : isNamePart c = false := by simp [isNamePart, hc]
    rcases text_cutSymbol c rest with htext | htext
    · exact .inl (htext ▸ EndsName.concat hpart [])
    · exact .inl (htext ▸ EndsName.concat (x := '=') (by decide) [c])

theorem cut_name {name : String} (h : cut previous c rest = .ok k) (hname : k.token = .name name) :
    isNameStart c = true ∧ k = cutName c rest := by
  cases cut_eq_ok_iff.mp h with
  | number _ hk =>
    obtain ⟨x, -, rfl⟩ := cutNumber_eq_ok_iff.mp hk
    cases hname
  | name hc => exact ⟨hc, rfl⟩
  | symbol _ _ =>
    obtain ⟨sym, hsym⟩ := token_cutSymbol c rest
    cases hsym.symm.trans hname

/-- Every name among the lexemes of a text stands in it, behind as many bytes as its position says. -/
theorem Scans.stands {lexed : Scan} (h : Scans position previous cs lexed)
    (hcs : ∀ c ∈ cs, isBracket c = false) (hfront : EndsName front ∨ cs.head?.any isNamePart = false)
    (hposition : byteLength front = position) {l : Lexeme} (hl : l ∈ lexed.lexemes) {name : String}
    (hname : l.token = .name name) :
    ∃ front' rest', Stands name.toList (front ++ cs) front' rest' ∧ IsName name.toList ∧
      byteLength front' = l.position := by
  induction h generalizing front with
  | nil => cases hl
  | @blank position previous c rest lexed hblank _ ih =>
    have hpart : isNamePart c = false := by simp [isNamePart, isDelimiter_of_isBlank hblank]
    have hrest := ih (fun d hd => hcs d (List.mem_cons_of_mem c hd))
      (.inl (EndsName.concat hpart front)) (by simp [hposition]) hl
    rwa [← List.append_cons] at hrest
  | @lexeme position previous c rest k lexed _ hcut _ ih =>
    have htext : k.text ++ k.rest = c :: rest := cut_append hcut
    rcases List.mem_cons.mp hl with rfl | hl
    · -- the name is cut off here
      obtain ⟨hstart, rfl⟩ := cut_name hcut hname
      have hletters : name.toList = (cutName c rest).text := by
        cases hname
        exact String.toList_ofList
      have hpart : ∀ d ∈ (cutName c rest).text, isNamePart d = true := by
        intro d hd
        refine isNamePart_of_cutName hstart hd (hcs d ?_)
        rw [← htext]
        exact List.mem_append_left _ hd
      have hfront : EndsName front :=
        hfront.resolve_right (ne_false_of_eq_true (isNamePart_of_isNameStart hstart))
      rw [hletters]
      refine ⟨front, (cutName c rest).rest, ⟨?_, hfront.startsAnew, isNamePart_behind_cutName c rest⟩,
        ⟨hstart, hpart⟩, hposition⟩
      rw [List.append_assoc, htext]
    · have hends : EndsName (front ++ k.text) ∨ k.rest.head?.any isNamePart = false := by
        refine (cut_ends hcut).imp_left fun hends d hd => ?_
        rw [List.getLast?_append_of_ne_nil _ (cut_text_ne_nil hcut)] at hd
        exact hends d hd
      have hrest := ih (fun d hd => hcs d (htext ▸ List.mem_append_right _ hd))
        hends (by simp [hposition]) hl
      rwa [List.append_assoc, htext] at hrest

end Lexemes

section Compile

variable {σ : Type} [Resolver σ] {s s' : σ} {name : String} {position : Nat}

theorem exists_append_valueOf (text : String) : ∃ start, text.toList = start ++ valueOf text := by
  rw [valueOf]
  cases hsplit : splitAssignment none text.toList with
  | none => exact ⟨[], rfl⟩
  | some parts =>
    refine ⟨parts.1 ++ ['='], ?_⟩
    rw [List.append_assoc]
    exact splitAssignment_eq_some hsplit

/-- The name occurs in the text behind so many bytes. -/
def OccursAt (name text : String) (offset : Nat) : Prop :=
  ∃ front rest, text.toList = front ++ name.toList ++ rest ∧ byteLength front = offset

/-- An unknown variable is reported with its offset in the expansion of the value. This is a place of the
name in the text if the bytes in front of the value are as many as the calls in place of subscripts add,
as where there is neither an assignment nor a subscript. -/
theorem unknownVariable_position {text : String}
    (h : compile text s = (.error (.unknownVariable name position), s')) :
    ∃ start front rest, text.toList = start ++ valueOf text ∧
      Stands name.toList (valueOf text) front rest ∧ position = expandedOffset front rest ∧
      (position = byteLength (start ++ front) ↔
        byteLength start = 6 * (front ++ rest.take 1).count '[') ∧
      (byteLength start = 6 * (front ++ rest.take 1).count '[' → OccursAt name text position) := by
  obtain ⟨lexed, hlexed, l, hl, htoken, rfl, hnone⟩ := compileValue_unknown (compile_unknown h)
  obtain ⟨-, expanded, hexpand, -, hscan⟩ := valueLexemes_eq_ok_iff.mp hlexed
  obtain ⟨start, hstart⟩ := exists_append_valueOf text
  have hunbracketed := (expandSubscripts_eq_ok_iff_steps.mp hexpand).2
  have harray : name.toList ≠ "ARRAY".toList := by
    intro heq
    rw [String.toList_injective heq] at hnone
    exact absurd hnone (by decide)
  have hempty : EndsName [] := nofun
  obtain ⟨front, rest, hstands, hname, hposition⟩ :=
    (Scans.of_scanFrom hscan).stands hunbracketed (.inl hempty) rfl hl htoken
  rw [List.nil_append] at hstands
  obtain ⟨front', rest', hstands', hoffset⟩ := stands_of_expandSubscripts hexpand hname harray hstands
  rw [hposition] at hoffset
  refine ⟨start, front', rest', hstart, hstands', hoffset.symm, ?_, fun hbytes => ?_⟩
  · rw [← hoffset, expandedOffset, byteLength_append]
    omega
  · refine ⟨start ++ front', rest', ?_, ?_⟩
    · rw [hstart, hstands'.text]
      simp
    · rw [← hoffset, expandedOffset, byteLength_append]
      omega

set_option maxRecDepth 20000 in
/-- A subscript in an assignment: three bytes in front of the value, and six that the call adds. -/
theorem unknownVariable_position_subscript :
    compile "x = a[b]" ({} : Scalars) = (.error (.unknownVariable "a" 7), {}) ∧
      ∃ start front rest, "x = a[b]".toList = start ++ valueOf "x = a[b]" ∧
        Stands "a".toList (valueOf "x = a[b]") front rest ∧ 7 = expandedOffset front rest := by
  have hcompile : compile "x = a[b]" ({} : Scalars) = (.error (.unknownVariable "a" 7), {}) := by
    cbv
  obtain ⟨start, front, rest, htext, hstands, hposition, -⟩ := unknownVariable_position hcompile
  exact ⟨hcompile, start, front, rest, htext, hstands, hposition⟩

set_option maxRecDepth 20000 in
/-- The name stands behind four bytes, and the position leaves out the three in front of the value. -/
theorem not_occursAt_assignment : ¬ ∀ (text name : String) (position : Nat) (s s' : Scalars),
    compile text s = (.error (.unknownVariable name position), s') → OccursAt name text position := by
  intro h
  have hcompile : compile "x = y" ({} : Scalars) = (.error (.unknownVariable "y" 1), {}) := by
    cbv
  obtain ⟨front, rest, htext, hfront⟩ := h _ _ _ _ _ hcompile
  have hletters : 'x' :: ' ' :: ['=', ' ', 'y'] = front ++ ['y'] ++ rest := htext
  cases front with
  | nil => cases hfront
  | cons c front =>
    cases front with
    | nil => cases hletters
    | cons d front =>
      have hc := c.utf8Size_pos
      have hd := d.utf8Size_pos
      rw [byteLength_cons, byteLength_cons] at hfront
      omega

end Compile

end ChoiceModel.Expression
