import ChoiceModel.Proofs.Expression.Loads
import ChoiceModel.Proofs.Store.Operations
import ChoiceModel.Proofs.Store.Selection

/-! Which parts of a context a value depends on. A binding reads the parts that its name announces and no
other, so an expression cannot tell two contexts apart that agree on the parts of its bindings. -/

namespace ChoiceModel

open Expression

variable {ο : Type}

namespace Store

/-- The parts of a context. -/
inductive Field where
  | origin
  | destination
  | household
  | alternative
  | decisionMaker
deriving DecidableEq

/-- Two contexts agree on the given parts. -/
structure Context.AgreeOn (fields : List Field) (c d : Context ο) : Prop where
  origin : .origin ∈ fields → d.origin = c.origin
  destination : .destination ∈ fields → d.destination = c.destination
  household : .household ∈ fields → d.household = c.household
  alternative : .alternative ∈ fields → d.alternative = c.alternative
  decisionMaker : .decisionMaker ∈ fields → d.decisionMaker = c.decisionMaker

theorem Context.AgreeOn.mono {fields more : List Field} {c d : Context ο} (h : c.AgreeOn more d)
    (hsubset : ∀ f ∈ fields, f ∈ more) : c.AgreeOn fields d :=
  ⟨fun hf => h.origin (hsubset _ hf), fun hf => h.destination (hsubset _ hf),
    fun hf => h.household (hsubset _ hf), fun hf => h.alternative (hsubset _ hf),
    fun hf => h.decisionMaker (hsubset _ hf)⟩

theorem Context.agreeOn_alternative {fields : List Field} (h : .alternative ∉ fields) (c : Context ο)
    (k : Nat) : c.AgreeOn fields { c with alternative := k } :=
  ⟨fun _ => rfl, fun _ => rfl, fun _ => rfl, fun hf => (h hf).elim, fun _ => rfl⟩

/-- The part of a context that a loop variable of this name stands for. -/
def loopField (name : String) : Field :=
  if name = "$orig" then .origin
  else if name = "$dest" then .destination
  else if name = "$hh" then .household
  else .alternative

/-- The parts of a context that a binding may use. The ends of a trip and the alternatives go by its
name, the rest by the kind of its source. -/
def Binding.fields (b : Binding) : List Field :=
  match b.source with
  | .scalar _ => []
  | .zone .. => if "dest.".toList.isPrefixOf b.name.toList then [.destination] else [.origin]
  | .household _ => [.household]
  | .alternative _ => [.alternative]
  | .matrix .. | .member .. | .array .. | .collection .. => [.origin, .destination]
  | .attribute .. =>
    if "@@".toList.isPrefixOf b.name.toList then [.decisionMaker] else [.decisionMaker, .alternative]
  | .loop _ => [loopField b.name]

/-- The parts of a context that a source reads. -/
def Source.fields : Source → List Field
  | .scalar _ => []
  | .zone _ .origin => [.origin]
  | .zone _ .destination => [.destination]
  | .household _ => [.household]
  | .alternative _ => [.alternative]
  | .matrix .. | .member .. | .array .. | .collection .. => [.origin, .destination]
  | .attribute _ true => [.decisionMaker]
  | .attribute _ false => [.decisionMaker, .alternative]
  | .loop .origin => [.origin]
  | .loop .destination => [.destination]
  | .loop .alternative => [.alternative]
  | .loop .household => [.household]

/-- The name of a binding announces every part of a context that its source reads. -/
def Binding.Announced (b : Binding) : Prop := ∀ f ∈ b.source.fields, f ∈ b.fields

theorem isPrefixOf_append (mark rest : String) :
    mark.toList.isPrefixOf (mark ++ rest).toList = true := by
  rw [String.toList_append]
  exact List.isPrefixOf_iff_prefix.mpr (List.prefix_append _ _)

theorem isPrefixOf_eq_false {mark name : String} (h : ∀ rest, name ≠ mark ++ rest) :
    mark.toList.isPrefixOf name.toList = false := by
  refine Bool.eq_false_iff.mpr fun hprefix => ?_
  obtain ⟨rest, hrest⟩ := List.isPrefixOf_iff_prefix.mp hprefix
  refine h (String.ofList rest) (String.toList_injective ?_)
  rw [String.toList_append, String.toList_ofList, hrest]

namespace Variables

variable {u v w : Variables ο} {name : String} {source : Source}

section Reading

variable {c d : Context ο} {b : Binding} {i : Nat}

theorem trip_of_agreeOn (h : c.AgreeOn [.origin, .destination] d) (name : String) :
    trip name d = trip name c := by
  rw [trip, trip, h.origin (by simp), h.destination (by simp)]

theorem zoneRow_of_agreeOn {column : Nat} {place : Place}
    (h : c.AgreeOn (Source.zone column place).fields d) (name : String) :
    zoneRow name place d = zoneRow name place c := by
  cases place with
  | origin => simp only [zoneRow, h.origin (by simp [Source.fields])]
  | destination => simp only [zoneRow, h.destination (by simp [Source.fields])]

theorem loopValue?_of_agreeOn {l : LoopVariable} (h : c.AgreeOn (Source.loop l).fields d) :
    loopValue? d l = loopValue? c l := by
  cases l with
  | origin => exact h.origin (by simp [Source.fields])
  | destination => exact h.destination (by simp [Source.fields])
  | «alternative» => exact congrArg some (h.alternative (by simp [Source.fields]))
  | household => exact h.household (by simp [Source.fields])

/-- A read gives the same value or the same error wherever the parts that the source reads are the same. -/
theorem read_of_agreeOn (hb : v.bindings[i]? = some b) (h : c.AgreeOn b.source.fields d) :
    v.read i d = v.read i c := by
  obtain ⟨name, source⟩ := b
  unfold read
  simp only [hb]
  cases source with
  | scalar slot => rfl
  | zone column place => simp only [zoneRow_of_agreeOn h]
  | household column => simp only [householdRow, h.household (by simp [Source.fields])]
  | «alternative» column => simp only [alternativeRow, h.alternative (by simp [Source.fields])]
  | matrix entry orientation => simp only [trip_of_agreeOn h]
  | member entry orientation number => simp only [trip_of_agreeOn h]
  | array entry orientation => simp only [trip_of_agreeOn h]
  | collection entry orientation => simp only [trip_of_agreeOn h]
  | «attribute» slot fixed =>
    cases fixed with
    | true => simp only [h.decisionMaker (by simp [Source.fields]), if_true]
    | false =>
      simp only [h.decisionMaker (by simp [Source.fields]), h.alternative (by simp [Source.fields])]
  | loop l => simp only [loopValue?_of_agreeOn h]

theorem readIndexed_of_agreeOn (hb : v.bindings[i]? = some b) (h : c.AgreeOn b.source.fields d) (y : Float) :
    v.readIndexed i y d = v.readIndexed i y c := by
  obtain ⟨name, source⟩ := b
  unfold readIndexed
  simp only [hb]
  cases source with
  | matrix entry orientation => simp only [trip_of_agreeOn h]
  | member entry orientation number => simp only [trip_of_agreeOn h]
  | array entry orientation => simp only [trip_of_agreeOn h]
  | collection entry orientation => simp only [trip_of_agreeOn h]
  | _ => rfl

end Reading

theorem Denotes.announced {kind : Kind} (h : v.Denotes kind name source) :
    (⟨name, source⟩ : Binding).Announced := by
  cases h with
  | loop l =>
    intro f hf
    cases l <;> exact hf
  | @«attribute» key slot hkey _ =>
    -- a second "@" would make it a fixed attribute, which is announced to read less
    have hletters : ∀ rest, "@" ++ key ≠ "@@" ++ rest := by
      intro rest heq
      have hlist := congrArg String.toList heq
      rw [String.toList_append, String.toList_append] at hlist
      have hkey' : key.toList = '@' :: rest.toList := (List.cons.inj hlist).2
      rw [hkey', List.head?_cons] at hkey
      exact hkey rfl
    intro f hf
    simp only [Binding.fields, isPrefixOf_eq_false hletters, Bool.false_eq_true, if_false]
    exact hf
  | fixedAttribute _ =>
    intro f hf
    simp only [Binding.fields, isPrefixOf_append, if_true]
    exact hf
  | scalar _ _ => exact nofun
  | @origin key column _ =>
    have hletters : ∀ rest, "orig." ++ key ≠ "dest." ++ rest := by
      intro rest heq
      have hlist := congrArg String.toList heq
      rw [String.toList_append, String.toList_append] at hlist
      exact absurd (List.cons.inj hlist).1 (by decide)
    intro f hf
    simp only [Binding.fields, isPrefixOf_eq_false hletters]
    exact hf
  | destination _ =>
    intro f hf
    simp only [Binding.fields, isPrefixOf_append]
    exact hf
  | zone _ hkey _ =>
    intro f hf
    simp only [Binding.fields, isPrefixOf_eq_false fun rest => (hkey rest).2]
    exact hf
  | household _ _ => exact fun _ hf => hf
  | «alternative» _ _ => exact fun _ hf => hf
  | matrix _ _ _ _ => exact fun _ hf => hf
  | member _ _ _ _ => exact fun _ hf => hf
  | array _ _ _ => exact fun _ hf => hf
  | collection _ _ _ => exact fun _ hf => hf

theorem announced_of_among? {kind : Kind} (h : v.among? name kind = some source) :
    (⟨name, source⟩ : Binding).Announced := (denotes_of_among? h).announced

theorem announced_of_source? (h : v.source? name = some source) :
    (⟨name, source⟩ : Binding).Announced := by
  rw [source?_eq_findSome?] at h
  obtain ⟨kind, -, hkind⟩ := List.exists_of_findSome?_eq_some h
  exact announced_of_among? hkind

/-- Every binding that `w` has got since `v` reads what its name announces. -/
def Announces (v w : Variables ο) : Prop :=
  (∀ b ∈ v.bindings, b.Announced) → ∀ b ∈ w.bindings, b.Announced

theorem announces_bind {b : Binding} (hb : b.Announced) : v.Announces (v.bind b).2 := by
  intro hv other hother
  rcases Array.mem_push.mp hother with hother | rfl
  · exact hv other hother
  · exact hb

theorem announces_of_bindings (h : w.bindings = v.bindings) : v.Announces w := by
  intro hv b hb
  rw [h] at hb
  exact hv b hb

theorem resolveRead_announces (name : String) (v : Variables ο) :
    v.Announces (resolveRead name v).2 := by
  unfold resolveRead
  split
  · exact id
  · split
    · rename_i source hsource
      exact announces_bind (announced_of_source? hsource)
    · exact id

theorem resolveArray_announces (name : String) (v : Variables ο) :
    v.Announces (resolveArray name v).2 := by
  unfold resolveArray
  split
  · exact id
  · split
    · rename_i source hsource
      have hgroup : v.among? name .group = some source := hsource
      exact announces_bind (announced_of_among? hgroup)
    · exact resolveRead_announces name v

theorem resolveAssign_announces (name : String) (v : Variables ο) :
    v.Announces (resolveAssign name v).2 := by
  have hread := resolveRead_announces name v
  unfold resolveAssign
  split
  · rename_i heq
    rw [heq] at hread
    exact hread
  · rename_i heq
    rw [heq] at hread
    split
    · exact fun hv => announces_bind (b := ⟨name, .scalar _⟩) nofun (hread hv)
    · exact hread

theorem resolving_announces : Resolving (@Announces ο) where
  refl _ := id
  trans _ _ _ h h' := h' ∘ h
  read := resolveRead_announces
  array := resolveArray_announces
  assign := resolveAssign_announces

theorem written_announces : Written (Context ο) (@Announces ο) where
  refl _ := id
  trans _ _ _ h h' := h' ∘ h
  write _ _ _ _ _ h := announces_of_bindings (write_sameNames h).bindings

theorem perform_announces (v : Variables ο) (operation : Operation ο) :
    v.Announces (v.perform operation) := by
  cases operation with
  | resolveRead name => exact resolveRead_announces name v
  | resolveArray name => exact resolveArray_announces name v
  | resolveAssign name => exact resolveAssign_announces name v
  | compile text => exact Expression.ofText?_resolving resolving_announces text v
  | solve e ctx => exact e.solveSeen_written written_announces .silent v ctx ()
  | write i x ctx =>
    cases hwrite : v.write i x ctx with
    | ok w =>
      have hperform : v.perform (.write i x ctx) = w := by simp only [perform, hwrite]
      rw [hperform]
      exact announces_of_bindings (write_sameNames hwrite).bindings
    | error e =>
      have hperform : v.perform (.write i x ctx) = v := by simp only [perform, hwrite]
      rw [hperform]
      exact id
  | compileUtility spec => exact Utility.compile_resolving resolving_announces spec v
  | solveUtility u ctx => exact u.solveSeen_written written_announces .silent v ctx ()
  | traceUtility u ctx alternative => exact u.traceSeen_written written_announces .silent v ctx alternative ()
  | _ => exact announces_of_bindings rfl

theorem performAll_announces (v : Variables ο) (operations : List (Operation ο)) :
    v.Announces (v.performAll operations) := by
  induction operations generalizing v with
  | nil => exact id
  | cons operation operations ih => exact fun hv => ih _ (v.perform_announces operation hv)

theorem Fresh.announced (h : Fresh v) : ∀ b ∈ v.bindings, b.Announced := by
  have hbindings : v.bindings = #[] := by
    cases h with
    | new attributes => rfl
    | loaded attributes hload =>
      have hbindings := load_bindings hload
      exact hbindings
  rw [hbindings]
  exact nofun

end Variables

end Store

namespace Expression

open Store

/-- The indices that a program reads at, for a value or for a group of matrices. -/
def Program.reads (p : Program) : List Nat := p.loads ++ p.groups

/-- The expression reads through the binding. -/
def Uses (e : Expression) (v : Variables ο) (b : Binding) : Prop :=
  ∃ p i, e.program? = some p ∧ i ∈ p.reads ∧ v.bindings[i]? = some b

theorem value_of_agreeOn {e : Expression} {v : Variables ο} {t : Tree Variable} {c d : Store.Context ο}
    (htree : e.program? = some t.program)
    (hagree : ∀ b, e.Uses v b → c.AgreeOn b.source.fields d) : e.value v d = e.value v c := by
  have hreads : ∀ i ∈ t.program.reads,
      v.read i d = v.read i c ∧ ∀ y, v.readIndexed i y d = v.readIndexed i y c := by
    intro i hi
    cases hb : v.bindings[i]? with
    | none => simp only [Variables.read, Variables.readIndexed, hb, implies_true, and_self]
    | some b =>
      have hsource := hagree b ⟨_, i, htree, hi, hb⟩
      exact ⟨Variables.read_of_agreeOn hb hsource, Variables.readIndexed_of_agreeOn hb hsource⟩
  obtain ⟨text, state⟩ := e
  cases state with
  | pending => cases htree
  | failed err => cases htree
  | compiled compiled =>
    have htree : compiled.program = t.program := Option.some.inj htree
    simp only [value, valueSeen, htree]
    rw [evaluate_congr (fun j hj => (hreads j (List.mem_append_left _ hj)).1)
      fun j hj => (hreads j (List.mem_append_right _ hj)).2]

/-- The value of a compiled expression depends on nothing in a context but the parts that the names of its
bindings announce. An expression without a binding that depends on the alternative has one value for all. -/
theorem value_noninterference {start v : Variables ο} {text : String} {e : Expression}
    (before later : List (Operation ο)) (hstart : start.Fresh)
    (hcompile : ofText? text (start.performAll before) = (.ok e, v)) :
    (∀ c d : Store.Context ο, (∀ b, e.Uses (v.performAll later) b → c.AgreeOn b.fields d) →
        e.value (v.performAll later) d = e.value (v.performAll later) c) ∧
      ((∀ b, e.Uses (v.performAll later) b → .alternative ∉ b.fields) → ∀ (c : Store.Context ο) k,
        e.value (v.performAll later) { c with alternative := k } = e.value (v.performAll later) c) := by
  obtain ⟨compiled, hc, rfl⟩ := ofText?_eq_ok_iff.mp hcompile
  obtain ⟨t, ht⟩ := compile_eq_tree hc
  have hannounced : ∀ b ∈ (v.performAll later).bindings, b.Announced := by
    have hcompiled := compile_resolving Variables.resolving_announces text (start.performAll before)
    rw [hc] at hcompiled
    exact v.performAll_announces later (hcompiled (start.performAll_announces before hstart.announced))
  have hvalue : ∀ c d : Store.Context ο,
      (∀ b, (⟨text, .compiled compiled⟩ : Expression).Uses (v.performAll later) b →
        c.AgreeOn b.fields d) →
      (⟨text, .compiled compiled⟩ : Expression).value (v.performAll later) d =
        (⟨text, .compiled compiled⟩ : Expression).value (v.performAll later) c := by
    intro c d hagree
    refine value_of_agreeOn (congrArg some ht) fun b hb => (hagree b hb).mono (hannounced b ?_)
    obtain ⟨_, i, _, _, hi⟩ := hb
    exact Array.mem_of_getElem? hi
  exact ⟨hvalue, fun hnone c k => hvalue c _ fun b hb => Context.agreeOn_alternative (hnone b hb) c k⟩

/-- An attribute that differs between alternatives. -/
def ages : Attributes Nat := ⟨#[("age", fun person k => Float.ofNat (person + k))]⟩

/-- Zones with one column and the attribute, both of which an expression reads. -/
def oneZone (x : Float) : Variables Nat where
  zones := ⟨#[("jobs", #[x])], 1⟩
  attributes := ages
  bindings := #[⟨"dest.jobs", .zone 0 .destination⟩, ⟨"@@age", .attribute 0 true⟩]

set_option maxRecDepth 20000 in
/-- A column at the destination and a fixed attribute. -/
theorem value_noninterference_fixed : ∃ (e : Expression) (v : Variables Nat),
    ofText? "dest.jobs*@@age" (({ attributes := ages } : Variables Nat).performAll
        [.addZoneColumn "jobs" #[5.0]]) = (.ok e, v) ∧
      (∀ c d : Store.Context Nat, d.destination = c.destination → d.decisionMaker = c.decisionMaker →
        e.value v d = e.value v c) ∧
      ∀ (c : Store.Context Nat) k, e.value v { c with alternative := k } = e.value v c := by
  have hcompile : ∀ x, ofText? "dest.jobs*@@age"
      (({ attributes := ages } : Variables Nat).performAll [.addZoneColumn "jobs" #[x]]) =
      (.ok ⟨"dest.jobs*@@age", .compiled ⟨Tree.program (.operator .mul (.load ⟨"dest.jobs", 0⟩)
        (.load ⟨"@@age", 1⟩)), none⟩⟩, oneZone x) := by
    intro x
    cbv
  have hfields : ∀ b, Uses ⟨"dest.jobs*@@age", .compiled ⟨Tree.program (.operator .mul
      (.load ⟨"dest.jobs", 0⟩) (.load ⟨"@@age", 1⟩)), none⟩⟩ (oneZone 5.0) b →
      b.fields = [.destination] ∨ b.fields = [.decisionMaker] := by
    rintro b ⟨p, i, hp, hi, hb⟩
    cases Option.some.inj hp
    have hi : i ∈ [0, 1] := hi
    simp only [List.mem_cons, List.not_mem_nil, or_false] at hi
    rcases hi with rfl | rfl
    · cases Option.some.inj hb
      exact .inl (by decide)
    · cases Option.some.inj hb
      exact .inr (by decide)
  obtain ⟨hagree, hfixed⟩ := value_noninterference _ [] (.new ages) (hcompile 5.0)
  refine ⟨_, _, hcompile 5.0, fun c d hdestination hperson => hagree c d fun b hb => ?_,
    hfixed fun b hb => ?_⟩
  · rcases hfields b hb with h | h
    · rw [h]
      exact { destination := fun _ => hdestination, origin := by simp, household := by simp,
              alternative := by simp, decisionMaker := by simp }
    · rw [h]
      exact { decisionMaker := fun _ => hperson, origin := by simp, destination := by simp,
              household := by simp, alternative := by simp }
  · rcases hfields b hb with h | h
    · simp [h]
    · simp [h]

end Expression

end ChoiceModel
