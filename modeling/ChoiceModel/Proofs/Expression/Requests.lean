import ChoiceModel.Expression.Basic
import ChoiceModel.Expression.Names
import ChoiceModel.Proofs.Expression.Loads
import ChoiceModel.Proofs.Expression.Resolving
import ChoiceModel.Proofs.Expression.Tiling

/-! What a compilation asks of the data source that its names are resolved in. The text tells it
beforehand: every name that is not reserved is asked for where it stands, the first argument of a lookup
as a group of matrices, and the target of an assignment comes last. -/

namespace ChoiceModel.Expression

open Store

/-- A call of a resolver. -/
inductive Request where
  | read (name : String)
  | array (name : String)
  | assign (name : String)
deriving DecidableEq

def Request.name : Request → String
  | read name | array name | assign name => name

/-- A data source with the calls that it has received, the first one first. -/
structure Logged (σ : Type) where
  source : σ
  calls : List Request

instance {σ : Type} [Resolver σ] : Resolver (Logged σ) where
  resolveRead name s :=
    let (i, source) := Resolver.resolveRead name s.source
    (i, ⟨source, s.calls ++ [.read name]⟩)
  resolveArray name s :=
    let (i, source) := Resolver.resolveArray name s.source
    (i, ⟨source, s.calls ++ [.array name]⟩)
  resolveAssign name s :=
    let (i, source) := Resolver.resolveAssign name s.source
    (i, ⟨source, s.calls ++ [.assign name]⟩)

def Token.call? : Token → Option Opcode
  | .name s => Opcode.ofName? s
  | _ => none

/-- The request for a token behind two others: a name right behind the parenthesis of a lookup is its
first argument. -/
def Token.request? (before previous : Option Token) (t : Token) : Option Request :=
  t.variable?.map fun name =>
    if previous.any Token.isOpenParen && before.bind Token.call? == some .lookup then .array name
    else .read name

/-- The requests for lexemes behind two tokens, one for each name that is not reserved. -/
def lexemeRequests (before previous : Option Token) : List Lexeme → List Request
  | [] => []
  | l :: ls =>
    (l.token.request? before previous).toList ++ lexemeRequests previous (some l.token) ls

/-- The requests for a value, none if it has no lexemes. -/
def valueRequests (cs : List Char) : List Request :=
  match valueLexemes cs with
  | .ok lexed => lexemeRequests none none lexed.lexemes
  | .error _ => []

/-- The requests for a text: the names of its value in order, and then the target. -/
def requests (text : String) : List Request :=
  valueRequests (valueOf text) ++ ((assignedName? text).map .assign).toList

/-- A text has a `=` that is no part of a comparison. -/
def HasAssign (text : String) : Prop :=
  ∃ front rest, text.toList = front ++ '=' :: rest ∧ front.getLast?.any isRelational = false ∧
    rest.head?.any isRelational = false

theorem isSome_splitAssignment_iff {p : Option Char} {cs : List Char} :
    (splitAssignment p cs).isSome = true ↔ ∃ front rest, cs = front ++ '=' :: rest ∧
      (front.getLast?.or p).any isRelational = false ∧ rest.head?.any isRelational = false := by
  induction cs generalizing p with
  | nil => simp [splitAssignment]
  | cons c cs ih =>
    rw [splitAssignment]
    split
    · rename_i hc
      simp only [Bool.and_eq_true, beq_iff_eq, Bool.not_eq_true'] at hc
      obtain ⟨⟨rfl, hp⟩, hrest⟩ := hc
      exact iff_of_true rfl ⟨[], cs, rfl, hp, hrest⟩
    · rename_i hc
      rw [Option.isSome_map, ih]
      constructor
      · rintro ⟨front, rest, rfl, hlast, hrest⟩
        exact ⟨c :: front, rest, rfl, getLast?_cons_or c front p ▸ hlast, hrest⟩
      · rintro ⟨front, rest, heq, hlast, hrest⟩
        cases front with
        | nil =>
          obtain ⟨rfl, rfl⟩ := List.cons.inj heq
          have hp : p.any isRelational = false := hlast
          exact (hc (by simp [hp, hrest])).elim
        | cons d front =>
          obtain ⟨rfl, rfl⟩ := List.cons.inj heq
          exact ⟨front, rest, rfl, getLast?_cons_or c front p ▸ hlast, hrest⟩

theorem assign_not_mem_lexemeRequests (name : String) (before previous : Option Token)
    (ls : List Lexeme) : .assign name ∉ lexemeRequests before previous ls := by
  induction ls generalizing before previous with
  | nil => exact List.not_mem_nil
  | cons l ls ih =>
    rw [lexemeRequests, List.mem_append, not_or]
    refine ⟨fun hmem => ?_, ih _ _⟩
    obtain ⟨other, -, hother⟩ := Option.map_eq_some_iff.mp (Option.mem_toList.mp hmem)
    split at hother <;> cases hother

theorem assign_not_mem_valueRequests (name : String) (cs : List Char) :
    .assign name ∉ valueRequests cs := by
  unfold valueRequests
  split
  · exact assign_not_mem_lexemeRequests _ _ _ _
  · exact List.not_mem_nil

theorem assign_mem_requests_iff (text : String) :
    (∃ name, .assign name ∈ requests text) ↔ HasAssign text := by
  have hassigned : (∃ name, .assign name ∈ requests text) ↔ (assignedName? text).isSome = true := by
    unfold requests
    cases assignedName? text with
    | none => simp [assign_not_mem_valueRequests]
    | some name => simp
  rw [hassigned, assignedName?, Option.isSome_map, isSome_splitAssignment_iff, HasAssign]
  simp only [Option.or_none]

theorem map_name_lexemeRequests (before previous : Option Token) (ls : List Lexeme) :
    (lexemeRequests before previous ls).map Request.name = namesOf ls := by
  induction ls generalizing before previous with
  | nil => rfl
  | cons l ls ih =>
    have hfirst : ((l.token.request? before previous).toList).map Request.name =
        l.token.variable?.toList := by
      rw [Token.request?]
      cases l.token.variable? with
      | none => rfl
      | some name =>
        simp only [Option.map_some, Option.toList_some, List.map_cons, List.map_nil]
        split <;> rfl
    rw [lexemeRequests, List.map_append, hfirst, ih, namesOf_cons]

section Markers

def Marker.call? : Marker → Option Opcode
  | .call op _ => some op
  | _ => none

/-- Every call among the markers but one on top has its parenthesis right above it. -/
def Parenthesized (ms : List Marker) : Prop :=
  ms.IsChain fun upper lower => lower.call?.isSome = true → ∃ d, upper = .group d

/-- The markers are nested, with no call on top. -/
structure Free (ms : List Marker) : Prop where
  nested : Parenthesized ms
  top : ms.head?.bind Marker.call? = none

theorem Free.cons {m : Marker} {ms : List Marker} (h : Free ms) : Parenthesized (m :: ms) := by
  refine List.isChain_cons.mpr ⟨fun lower hlower hcall => ?_, h.nested⟩
  have htop := h.top
  rw [hlower, Option.bind_some] at htop
  rw [htop] at hcall
  cases hcall

theorem Parenthesized.of_cons {m : Marker} {ms : List Marker} (h : Parenthesized (m :: ms))
    (hm : ∀ d, m ≠ .group d) : Free ms := by
  obtain ⟨hfirst, hrest⟩ := List.isChain_cons.mp h
  refine ⟨hrest, Option.eq_none_iff_forall_ne_some.mpr fun op hop => ?_⟩
  obtain ⟨lower, hlower, hcall⟩ := Option.bind_eq_some_iff.mp hop
  obtain ⟨d, hd⟩ := hfirst lower hlower (by rw [hcall]; rfl)
  exact hm d hd

theorem Parenthesized.of_append {front ms : List Marker} (h : Parenthesized (front ++ ms)) : Parenthesized ms :=
  h.suffix (List.suffix_append _ _)

theorem Parenthesized.tail {m : Marker} {ms : List Marker} (h : Parenthesized (m :: ms)) : Parenthesized ms :=
  (List.isChain_cons.mp h).2

theorem settle_free {level position : Nat} {markers ms : List Marker} {out out' : Output}
    (h : settle level position markers out = .ok (ms, out')) (hfree : Free markers) : Free ms := by
  induction markers generalizing out with
  | nil =>
    cases h
    exact hfree
  | cons m markers ih =>
    cases m with
    | operator op =>
      rw [settle] at h
      split at h
      · split at h
        · exact ih h (hfree.nested.of_cons fun _ heq => by cases heq)
        · cases h
      · cases h
        exact hfree
    | group depth =>
      cases h
      exact hfree
    | comma =>
      cases h
      exact hfree
    | call op start =>
      cases h
      exact hfree

theorem awaitsMatrix_group (depth : Nat) (ms : List Marker) (out : Output) :
    (⟨.group depth :: ms, out⟩ : Builder).awaitsMatrix =
      (ms.head?.bind Marker.call? == some .lookup) := by
  cases ms with
  | nil => rfl
  | cons m ms =>
    cases m with
    | call op start => cases op <;> rfl
    | _ => rfl

/-- What the markers of a builder have to do with the two tokens in front. -/
structure Placed (before previous : Option Token) (b : Builder) : Prop where
  nested : Parenthesized b.markers
  top : b.markers.head?.bind Marker.call? = previous.bind Token.call?
  awaits : previous.any Token.isOpenParen = true →
    b.awaitsMatrix = (before.bind Token.call? == some .lookup)

namespace Placed

variable {σ : Type} [Resolver σ] {before previous next : Option Token} {b b' : Builder} {s s' : σ}

theorem start : Placed none none {} := ⟨.nil, rfl, nofun⟩

theorem free (h : Placed before previous b) (hprevious : previous.bind Token.call? = none) :
    Free b.markers := ⟨h.nested, h.top.trans hprevious⟩

theorem of_free {t : Token} (h : Free b.markers) (ht : t.call? = none) (hopen : t.isOpenParen = false) :
    Placed previous (some t) b :=
  ⟨h.nested, h.top.trans ht.symm, fun h => by rw [Option.any_some, hopen] at h; cases h⟩

theorem isOpenParen_of_call {position : Nat} {t : Token}
    (hmove : Move previous next position t b s b' s') (ht : t.call?.isSome = true) :
    next.any Token.isOpenParen = true := by
  cases hmove with
  | call _ _ _ hnext => exact hnext
  | matrix hname _ _ _ =>
    rw [Token.call?, hname] at ht
    cases ht
  | load hname _ _ _ =>
    rw [Token.call?, hname] at ht
    cases ht
  | _ => cases ht

/-- A move keeps the markers in their places, as long as only a parenthesis follows a call. -/
theorem move {position : Nat} {t : Token} (h : Placed before previous b)
    (hcall : (previous.bind Token.call?).isSome = true → t.isOpenParen = true)
    (hmove : Move previous next position t b s b' s') : Placed previous (some t) b' := by
  have hfree : t.isOpenParen = false → Free b.markers := by
    intro ht
    refine h.free (Option.not_isSome_iff_eq_none.mp fun hsome => ?_)
    rw [hcall hsome] at ht
    cases ht
  cases hmove with
  | number x => exact of_free (hfree rfl) rfl rfl
  | call _ _ hname _ => exact ⟨(hfree rfl).cons, hname.symm, nofun⟩
  | matrix hname _ _ _ => exact of_free (hfree rfl) hname rfl
  | load hname _ _ _ => exact of_free (hfree rfl) hname rfl
  | «open» =>
    refine ⟨List.isChain_cons.mpr ⟨fun _ _ _ => ⟨_, rfl⟩, h.nested⟩, rfl, fun _ => ?_⟩
    rw [awaitsMatrix_group, h.top]
  | @comma m _ _ _ _ hsettle hopen =>
    have hsettled := settle_free hsettle (hfree rfl)
    exact of_free ⟨hsettled.cons, rfl⟩ rfl rfl
  | @group d ms _ _ _ hsettle hcall _ =>
    have hsettled := settle_free hsettle (hfree rfl)
    refine of_free ⟨hsettled.nested.tail, ?_⟩ rfl rfl
    cases ms with
    | nil => rfl
    | cons m ms =>
      cases m with
      | call op start => exact (hcall op start ms rfl).elim
      | _ => rfl
  | apply _ hsettle _ _ _ =>
    have hsettled := (settle_free hsettle (hfree rfl)).nested.of_append
    exact of_free (hsettled.tail.of_cons nofun) rfl rfl
  | operator _ hsettle =>
    exact of_free ⟨(settle_free hsettle (hfree rfl)).cons, rfl⟩ rfl rfl

end Placed

end Markers

section Log

variable {σ α : Type} {log expected : List Request}

/-- A run over a logged source has the outcome of the run over the source alone. It makes the expected
calls in order, all of them if it succeeds and a part from the first one on if it fails. -/
inductive Follows (log expected : List Request) :
    Except SyntaxError α × σ → Except SyntaxError α × Logged σ → Prop where
  | ok (a : α) (s : σ) : Follows log expected (.ok a, s) (.ok a, ⟨s, log ++ expected⟩)
  | error {calls : List Request} (e : SyntaxError) (s : σ) : calls <+: expected →
    Follows log expected (.error e, s) (.error e, ⟨s, log ++ calls⟩)

theorem Follows.silent (e : SyntaxError) (s : σ) :
    Follows (α := α) log expected (.error e, s) (.error e, ⟨s, log⟩) := by
  have h : Follows (α := α) log expected (.error e, s) (.error e, ⟨s, log ++ []⟩) :=
    .error e s List.nil_prefix
  rwa [List.append_nil] at h

theorem Follows.of_ok (a : α) (s : σ) :
    Follows log [] (.ok a, s) (.ok a, (⟨s, log⟩ : Logged σ)) := by
  have h : Follows log [] (.ok a, s) (.ok a, (⟨s, log ++ []⟩ : Logged σ)) := .ok a s
  rwa [List.append_nil] at h

variable [Resolver σ] {before previous : Option Token} {b : Builder} (log)

theorem nameStep_follows (next : Option Token) (h : Placed before previous b) (name : String)
    (position : Nat) (s : σ) :
    Follows log ((Token.name name).request? before previous).toList
      (nameStep previous next name position b s)
      (nameStep previous next name position b (⟨s, log⟩ : Logged σ)) := by
  have hbase : (previous.any Token.isOpenParen && b.awaitsMatrix) =
      (previous.any Token.isOpenParen && before.bind Token.call? == some .lookup) := by
    cases hopen : previous.any Token.isOpenParen with
    | false => rfl
    | true => rw [h.awaits hopen]
  unfold nameStep
  cases hname : Opcode.ofName? name with
  | some op =>
    have hrequest : (Token.name name).request? before previous = none := by
      simp [Token.request?, Token.variable?, hname]
    rw [hrequest]
    simp only
    split
    · exact .of_ok _ _
    · exact .silent _ _
  | none =>
    have hrequest : (Token.name name).request? before previous =
        some (if previous.any Token.isOpenParen && b.awaitsMatrix then .array name else .read name) := by
      simp [Token.request?, Token.variable?, hname, hbase]
    rw [hrequest, Option.toList_some]
    by_cases hnext : next.any Token.isOpenParen = true
    · simp only [hnext, if_true]
      exact .silent _ _
    · simp only [hnext]
      split
      · simp only [Resolver.resolveArray]
        rcases Resolver.resolveArray name s with ⟨_ | i, s'⟩
        · exact .error _ _ List.prefix_rfl
        · exact .ok _ _
      · simp only [Resolver.resolveRead]
        rcases Resolver.resolveRead name s with ⟨_ | i, s'⟩
        · exact .error _ _ List.prefix_rfl
        · exact .ok _ _

theorem step_follows (next : Option Token) (h : Placed before previous b) (l : Lexeme) (s : σ) :
    Follows log (l.token.request? before previous).toList (step previous next l b s)
      (step previous next l b (⟨s, log⟩ : Logged σ)) := by
  unfold step
  cases l.token with
  | number x => exact .of_ok _ _
  | name name => exact nameStep_follows log next h name l.position s
  | symbol sym =>
    simp only
    cases b.symbol sym l.position with
    | ok b' => exact .of_ok _ _
    | error e => exact .silent _ _

theorem run_follows {stop : Nat} {ls : List Lexeme} (h : Placed before previous b)
    (hcall : (previous.bind Token.call?).isSome = true →
      (ls.head?.map Lexeme.token).any Token.isOpenParen = true) (s : σ) :
    Follows log (lexemeRequests before previous ls) (run stop previous ls b s)
      (run stop previous ls b (⟨s, log⟩ : Logged σ)) := by
  induction ls generalizing before previous b s log with
  | nil =>
    rw [run, run, lexemeRequests]
    cases Builder.finish stop b.markers b.output with
    | ok p => exact .of_ok p s
    | error e => exact .silent e s
  | cons l ls ih =>
    have hstep := step_follows log (ls.head?.map Lexeme.token) h l s
    rw [run, run, lexemeRequests]
    generalize hplain : step previous (ls.head?.map Lexeme.token) l b s = plain at hstep ⊢
    generalize step previous (ls.head?.map Lexeme.token) l b (⟨s, log⟩ : Logged σ) = logged at hstep ⊢
    cases hstep with
    | error e s' hcalls => exact .error e s' (hcalls.trans (List.prefix_append _ _))
    | ok b' s' =>
      have hmove := step_eq_ok_iff.mp hplain
      have hplaced := h.move (fun hsome => by simpa using hcall hsome) hmove
      have hnext : ((some l.token).bind Token.call?).isSome = true →
          (ls.head?.map Lexeme.token).any Token.isOpenParen = true :=
        Placed.isOpenParen_of_call hmove
      have hrest := ih (log ++ (l.token.request? before previous).toList) hplaced hnext s'
      dsimp only
      generalize run stop (some l.token) ls b' s' = plain at hrest ⊢
      generalize run stop (some l.token) ls b' (⟨s', log ++ _⟩ : Logged σ) = logged at hrest ⊢
      cases hrest with
      | ok p s₂ =>
        rw [List.append_assoc]
        exact .ok p s₂
      | error e s₂ hcalls =>
        rw [List.append_assoc]
        exact .error e s₂ ((List.prefix_append_right_inj _).mpr hcalls)

theorem compileValue_follows (cs : List Char) (s : σ) :
    Follows log (valueRequests cs) (compileValue cs s) (compileValue cs (⟨s, log⟩ : Logged σ)) := by
  unfold compileValue valueRequests
  cases valueLexemes cs with
  | error e => exact .silent e s
  | ok lexed => exact run_follows log .start nofun s

theorem compile_eq (text : String) (s : σ) : compile text s =
    match compileValue (valueOf text) s with
    | (.error e, s) => (.error e, s)
    | (.ok program, s) =>
      match assignedName? text with
      | none => (.ok ⟨program, none⟩, s)
      | some name =>
        match checkTarget name with
        | .error e => (.error e, s)
        | .ok () =>
          match Resolver.resolveAssign name s with
          | (some i, s) => (.ok ⟨program, some i⟩, s)
          | (none, s) => (.error (.unassignable name), s) := by
  unfold compile valueOf assignedName?
  rcases splitAssignment none text.toList with _ | ⟨target, value⟩
  · dsimp only
    rcases compileValue text.toList s with ⟨e | p, s₁⟩ <;> rfl
  · rfl

/-- A compilation makes the calls that the text tells. The target of an assignment is not asked for
before the value has compiled. -/
theorem compile_follows (text : String) (s : σ) :
    Follows log (requests text) (compile text s) (compile text (⟨s, log⟩ : Logged σ)) ∧
      ∀ e s', compileValue (valueOf text) s = (.error e, s') →
        Follows log (valueRequests (valueOf text)) (compile text s)
          (compile text (⟨s, log⟩ : Logged σ)) := by
  have hvalue := compileValue_follows log (valueOf text) s
  rw [compile_eq, compile_eq, requests]
  generalize compileValue (valueOf text) s = plain at hvalue ⊢
  generalize compileValue (valueOf text) (⟨s, log⟩ : Logged σ) = logged at hvalue ⊢
  cases hvalue with
  | error e s₁ hcalls =>
    exact ⟨.error e s₁ (hcalls.trans (List.prefix_append _ _)), fun _ _ _ => .error e s₁ hcalls⟩
  | ok p s₁ =>
    refine ⟨?_, nofun⟩
    dsimp only
    cases assignedName? text with
    | none =>
      rw [Option.map_none, Option.toList_none, List.append_nil]
      exact .ok _ s₁
    | some name =>
      dsimp only
      cases checkTarget name with
      | error e => exact .error e s₁ (List.prefix_append _ _)
      | ok _ =>
        simp only [Resolver.resolveAssign, List.append_assoc]
        rcases Resolver.resolveAssign name s₁ with ⟨_ | i, s₂⟩
        · exact .error _ s₂ List.prefix_rfl
        · exact .ok _ s₂

end Log

section Parse

variable {σ : Type} [Resolver σ]

theorem variableNames_ofList {cs : List Char} {lexed : Scan} (h : valueLexemes cs = .ok lexed) :
    variableNames (String.ofList cs) = .ok ((valueRequests cs).map Request.name) := by
  obtain ⟨-, expanded, hexpand, -, hscan⟩ := valueLexemes_eq_ok_iff.mp h
  rw [variableNames, tokenize, String.toList_ofList, hexpand, valueRequests, h,
    map_name_lexemeRequests]
  simp only [bind, Except.bind, hscan]
  rfl

/-- Parsing calls the data source with the requests that the text tells, all of them if it succeeds and
the first ones if it fails, and reads the names of the value. Parsing again calls nothing and has the
outcome of the first time. -/
theorem parse_requests (text : String) (s : σ) :
    ∃ (r : Except SyntaxError Unit) (e : Expression) (s' : σ) (calls : List Request),
      parse ⟨text, .pending⟩ s = (r, e, s') ∧
      parse ⟨text, .pending⟩ (⟨s, []⟩ : Logged σ) = (r, e, ⟨s', calls⟩) ∧
      calls <+: requests text ∧
      (r = .ok () → calls = requests text ∧
        variableNames (String.ofList (valueOf text)) =
          .ok ((valueRequests (valueOf text)).map Request.name)) ∧
      ((∃ name, .assign name ∈ requests text) ↔ HasAssign text) ∧
      (∀ name, .assign name ∈ calls → ∃ p s₁, compileValue (valueOf text) s = (.ok p, s₁)) ∧
      ∀ {τ : Type} [Resolver τ] (t : τ), parse e t = (r, e, t) := by
  obtain ⟨hcompile, hvalue⟩ := compile_follows [] text s
  have hassign : ∀ {calls : List Request} {name : String}, calls <+: valueRequests (valueOf text) →
      .assign name ∉ calls :=
    fun hcalls hmem => assign_not_mem_valueRequests _ _ (hcalls.subset hmem)
  unfold parse
  simp only
  generalize hplain : compile text s = plain at hcompile hvalue ⊢
  generalize compile text (⟨s, []⟩ : Logged σ) = logged at hcompile hvalue ⊢
  cases hcompile with
  | ok c s' =>
    obtain ⟨s₁, hcompiled⟩ := compile_eq_ok hplain
    obtain ⟨lexed, hlexed, -⟩ := compileValue_eq_ok hcompiled
    exact ⟨.ok (), _, s', _, rfl, rfl, List.prefix_rfl,
      fun _ => ⟨rfl, variableNames_ofList hlexed⟩, assign_mem_requests_iff text,
      fun _ _ => ⟨_, s₁, hcompiled⟩, fun _ => rfl⟩
  | error err s' hcalls =>
    refine ⟨.error err, _, s', _, rfl, rfl, hcalls, nofun, assign_mem_requests_iff text,
      fun name hname => ?_, fun _ => rfl⟩
    rcases hcompiled : compileValue (valueOf text) s with ⟨e | p, s₁⟩
    · cases hvalue e s₁ hcompiled with
      | error _ _ hcalls => exact (hassign hcalls hname).elim
    · exact ⟨p, s₁, rfl⟩

end Parse

end ChoiceModel.Expression
