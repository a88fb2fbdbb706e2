import ChoiceModel.Proofs.Expression.Resolvable
import ChoiceModel.Proofs.Store.Coherence

/-! What the names of variables mean. A name that has been bound means what its binding says, and any other
one what a lookup selects. Names that are read keep all meanings as they are, and the target of an
assignment gets one only where it has none. So two tables with the same meanings compile the same texts. -/

namespace ChoiceModel.Store.Variables

open Expression

variable {ο : Type} {u v v' w w' : Variables ο} {name other : String} {group : Bool} {i : Nat}
  {source : Source} {names more : List String}

/-- The data of variables, without the bindings to it. -/
def stores (v : Variables ο) : Variables ο := { v with bindings := #[] }

/-- The variables with further scalars of the value 0. -/
def adding (v : Variables ο) (names : List String) : Variables ο :=
  { v with scalars := ⟨v.scalars.entries ++ (names.map (·, 0.0)).toArray⟩ }

/-- What a name means as a group of matrices or as a value. -/
def meaning? (v : Variables ο) (name : String) (group : Bool) : Option Source :=
  match v.bindingOf? name group with
  | some i => v.bindings[i]?.map Binding.source
  | none => v.sourceAs? name group

theorem meaning?_of_bindingOf? (h : v.bindingOf? name group = some i)
    (hb : v.bindings[i]? = some ⟨name, source⟩) : v.meaning? name group = some source := by
  simp only [meaning?, h, hb, Option.map_some]

theorem meaning?_of_unbound (h : v.bindingOf? name group = none) :
    v.meaning? name group = v.sourceAs? name group := by
  simp only [meaning?, h]

theorem meaning?_bind_self {b : Binding} (hnone : v.bindingOf? b.name b.source.isGroup = none) :
    (v.bind b).2.meaning? b.name b.source.isGroup = some b.source := by
  refine meaning?_of_bindingOf? (i := v.bindings.size) ?_ Array.getElem?_push_size
  rw [bindingOf?_bind, hnone, Option.none_or, if_pos (by simp)]

theorem meaning?_bind_of_ne {b : Binding} (hne : b.name = other → b.source.isGroup ≠ group) :
    (v.bind b).2.meaning? other group = v.meaning? other group := by
  have hfind : (v.bind b).2.bindingOf? other group = v.bindingOf? other group := by
    rw [bindingOf?_bind, if_neg, Option.or_none]
    simpa using hne
  cases hbinding : v.bindingOf? other group with
  | some j =>
    obtain ⟨source, hb, -⟩ := getElem?_of_bindingOf? hbinding
    rw [meaning?_of_bindingOf? hbinding hb]
    exact meaning?_of_bindingOf? (hfind.trans hbinding) (getElem?_bind hb)
  | none =>
    rw [meaning?_of_unbound hbinding, meaning?_of_unbound (hfind.trans hbinding)]
    rfl

theorem meaning?_adding (hother : other ≠ name ∨ group = true) :
    (v.adding [name]).meaning? other group = v.meaning? other group := by
  have hsource : (v.adding [name]).sourceAs? other group = v.sourceAs? other group := by
    rcases hother with hne | rfl
    · exact sourceAs?_push hne 0.0 group
    · rfl
  unfold meaning?
  rw [hsource]
  rfl

theorem isFree_congr (h : w.matrices = v.matrices) (name : String) : w.isFree name = v.isFree name := by
  rw [isFree, h]
  rfl

/-- The variables `w` are `v` with further bindings and with new scalars of the value 0, one for each of
the names. None of these meant anything, and no other meaning has changed. -/
structure Learns (names : List String) (v w : Variables ο) : Prop where
  stores : w.stores = (v.adding names).stores
  unknown : ∀ name ∈ names, v.meaning? name false = none ∧ v.isFree name = true
  known : ∀ name ∈ names, ∃ source, w.meaning? name false = some source ∧ source.isWritable = true
  others : ∀ name group, name ∉ names ∨ group = true → w.meaning? name group = v.meaning? name group

namespace Learns

theorem refl (v : Variables ο) : Learns [] v v :=
  ⟨by simp [Variables.stores, adding], nofun, nofun, fun _ _ _ => rfl⟩

theorem meaning?_eq (h : Learns [] v w) (name : String) (group : Bool) :
    w.meaning? name group = v.meaning? name group :=
  h.others name group (.inl List.not_mem_nil)

theorem matrices (h : Learns names v w) : w.matrices = v.matrices := by
  have hmatrices : w.stores.matrices = (v.adding names).stores.matrices := by rw [h.stores]
  exact hmatrices

theorem trans (h : Learns names u v) (h' : Learns more v w) : Learns (names ++ more) u w := by
  have hkept : ∀ name ∈ more, v.meaning? name false = u.meaning? name false := by
    intro name hname
    refine h.others name false (.inl fun hmem => ?_)
    obtain ⟨source, hsource, -⟩ := h.known name hmem
    cases hsource.symm.trans (h'.unknown name hname).1
  refine ⟨?_, fun name hname => ?_, fun name hname => ?_, fun name group hname => ?_⟩
  · have hadding : (v.adding more).stores = v.stores.adding more := rfl
    rw [h'.stores, hadding, h.stores]
    simp [Variables.stores, adding]
  · rcases List.mem_append.mp hname with hname | hname
    · exact h.unknown name hname
    · rw [← hkept name hname, ← isFree_congr h.matrices]
      exact h'.unknown name hname
  · by_cases hmore : name ∈ more
    · exact h'.known name hmore
    · rw [h'.others name false (.inl hmore)]
      exact h.known name ((List.mem_append.mp hname).resolve_right hmore)
  · rw [List.mem_append, not_or] at hname
    rw [h'.others name group (hname.imp_left And.right), h.others name group (hname.imp_left And.left)]

/-- Only new scalars make a difference to the data. -/
theorem stores_eq_iff (h : Learns names v w) : w.stores = v.stores ↔ names = [] := by
  rw [h.stores]
  constructor
  · intro hsame
    have hsize := congrArg (fun t : Variables ο => t.scalars.entries.size) hsame
    simp only [Variables.stores, adding, Array.size_append, List.size_toArray, List.length_map] at hsize
    exact List.eq_nil_of_length_eq_zero (by omega)
  · rintro rfl
    simp [Variables.stores, adding]

end Learns

theorem learns_bind {b : Binding} (hnone : v.bindingOf? b.name b.source.isGroup = none)
    (hsource : v.sourceAs? b.name b.source.isGroup = some b.source) : Learns [] v (v.bind b).2 := by
  refine ⟨(Learns.refl v).stores, nofun, nofun, fun other group _ => ?_⟩
  by_cases hkey : b.name = other ∧ b.source.isGroup = group
  · obtain ⟨rfl, rfl⟩ := hkey
    rw [meaning?_bind_self hnone, meaning?_of_unbound hnone, hsource]
  · exact meaning?_bind_of_ne (not_and.mp hkey)

/-- What a resolution of a name to be read finds: its meaning, if it has one. -/
inductive Known (v : Variables ο) (name : String) (group : Bool) : Option Nat × Variables ο → Prop where
  | found {i : Nat} {source : Source} {w : Variables ο} : v.meaning? name group = some source →
    w.bindings[i]? = some ⟨name, source⟩ → Learns [] v w → Known v name group (some i, w)
  | unknown : v.meaning? name group = none → Known v name group (none, v)

theorem resolveRead_known (name : String) (v : Variables ο) :
    Known v name false (resolveRead name v) := by
  cases hbinding : v.bindingOf? name false with
  | some i =>
    obtain ⟨source, hb, -⟩ := getElem?_of_bindingOf? hbinding
    rw [resolveRead_of_bindingOf? hbinding]
    exact .found (meaning?_of_bindingOf? hbinding hb) hb (.refl v)
  | none =>
    have hmeaning := meaning?_of_unbound hbinding
    cases hsource : v.source? name with
    | some source =>
      have hgroup : source.isGroup = false := (supports_source? hsource).2
      rw [resolveRead_of_source? hbinding hsource]
      exact .found (hmeaning.trans hsource) Array.getElem?_push_size
        (learns_bind (by rw [hgroup, hbinding]) (by rw [hgroup]; exact hsource))
    | none =>
      rw [resolveRead_of_none hbinding hsource]
      exact .unknown (hmeaning.trans hsource)

theorem resolveArray_known (h : (v.meaning? name true).isSome = true) :
    Known v name true (resolveArray name v) := by
  cases hbinding : v.bindingOf? name true with
  | some i =>
    obtain ⟨source, hb, -⟩ := getElem?_of_bindingOf? hbinding
    rw [resolveArray_of_bindingOf? hbinding]
    exact .found (meaning?_of_bindingOf? hbinding hb) hb (.refl v)
  | none =>
    have hmeaning := meaning?_of_unbound hbinding
    rw [hmeaning] at h
    obtain ⟨source, hsource⟩ := Option.isSome_iff_exists.mp h
    have hgroup : source.isGroup = true := isGroup_of_sourceAs? hsource
    rw [resolveArray_of_group hbinding hsource]
    exact .found (hmeaning.trans hsource) Array.getElem?_push_size
      (learns_bind (by rw [hgroup, hbinding]) (by rw [hgroup]; exact hsource))

theorem resolveArray_of_unknown (h : v.meaning? name true = none) :
    resolveArray name v = resolveRead name v := by
  cases hbinding : v.bindingOf? name true with
  | some i =>
    obtain ⟨source, hb, -⟩ := getElem?_of_bindingOf? hbinding
    rw [meaning?_of_bindingOf? hbinding hb] at h
    cases h
  | none =>
    rw [meaning?_of_unbound hbinding] at h
    exact resolveArray_of_none hbinding h

theorem Known.learns {r : Option Nat × Variables ο} (h : Known v name group r) : Learns [] v r.2 := by
  cases h with
  | found _ _ hlearns => exact hlearns
  | unknown _ => exact .refl v

theorem Known.isSome_eq {r : Option Nat × Variables ο} (h : Known v name group r) :
    r.1.isSome = (v.meaning? name group).isSome := by
  cases h with
  | found hmeaning _ _ => rw [hmeaning]; rfl
  | unknown hmeaning => rw [hmeaning]; rfl

theorem learns_reading : Reading (@Learns ο []) where
  refl := .refl
  trans _ _ _ := .trans
  read name v := (resolveRead_known name v).learns
  array name v := by
    change Learns [] v (resolveArray name v).2
    cases hmeaning : v.meaning? name true with
    | some source => exact (resolveArray_known (by rw [hmeaning]; rfl)).learns
    | none =>
      rw [resolveArray_of_unknown hmeaning]
      exact (resolveRead_known name v).learns

/-- What a resolution of the target of an assignment finds: a meaning that can be written, or a new
scalar. -/
inductive Assigned (v : Variables ο) (name : String) : Option Nat × Variables ο → Prop where
  | written {i : Nat} {source : Source} {w : Variables ο} : v.meaning? name false = some source →
    source.isWritable = true → Learns [] v w → Assigned v name (some i, w)
  | readOnly {source : Source} {w : Variables ο} : v.meaning? name false = some source →
    source.isWritable = false → Learns [] v w → Assigned v name (none, w)
  | created {i : Nat} {w : Variables ο} : Learns [name] v w → Assigned v name (some i, w)
  | reserved : v.meaning? name false = none → v.isFree name = false → Assigned v name (none, v)

theorem learns_create (hmeaning : v.meaning? name false = none) (hfree : v.isFree name = true)
    (hbinding : v.bindingOf? name false = none) :
    Learns [name] v ((v.adding [name]).bind ⟨name, .scalar v.scalars.size⟩).2 := by
  generalize hb : (⟨name, .scalar v.scalars.size⟩ : Binding) = b
  have hname : b.name = name := by rw [← hb]
  have hgroup : b.source.isGroup = false := by rw [← hb]; rfl
  have hself := meaning?_bind_self (v := v.adding [name]) (b := b) (by rw [hname, hgroup]; exact hbinding)
  rw [hname, hgroup] at hself
  refine ⟨rfl, ?_, ?_, fun other group hother => ?_⟩
  · simpa using ⟨hmeaning, hfree⟩
  · simpa using ⟨_, hself, by rw [← hb]; rfl⟩
  · rw [List.mem_singleton] at hother
    rw [meaning?_bind_of_ne, meaning?_adding hother]
    rw [hname, hgroup]
    rintro rfl rfl
    simp at hother

theorem resolveAssign_assigned (name : String) (v : Variables ο) :
    Assigned v name (resolveAssign name v) := by
  have hknown := resolveRead_known name v
  obtain ⟨i, w, hread, hassign⟩ | ⟨hread, hassign⟩ := resolveAssign_cases name v
  · rw [hread] at hknown
    cases hknown with
    | @found _ source _ hmeaning hb hlearns =>
      rw [hassign, hb, Option.any_some]
      cases hwritable : source.isWritable with
      | true => exact .written hmeaning hwritable hlearns
      | false => exact .readOnly hmeaning hwritable hlearns
  · obtain ⟨hbinding, hsource⟩ := unknown_of_resolveRead (congrArg Prod.fst hread)
    have hmeaning : v.meaning? name false = none := (meaning?_of_unbound hbinding).trans hsource
    obtain ⟨hfree, hassign⟩ | ⟨hfree, -, hassign⟩ := hassign
    · rw [hassign]
      exact .reserved hmeaning hfree
    · rw [hassign]
      exact .created (learns_create hmeaning hfree hbinding)

/-- The names that texts leave behind, if all of them compile: those that are assigned and mean nothing. -/
def newNames (v : Variables ο) (texts : List String) : List String :=
  ((texts.filterMap assignedName?).filter fun name => (v.meaning? name false).isNone).eraseDups

theorem meaning?_of_mem_newNames {texts : List String} (h : name ∈ v.newNames texts) :
    v.meaning? name false = none := by
  rw [newNames, List.mem_eraseDups, List.mem_filter] at h
  exact Option.isNone_iff_eq_none.mp h.2

theorem newNames_singleton (v : Variables ο) (text : String) : v.newNames [text] =
    ((assignedName? text).filter fun name => (v.meaning? name false).isNone).toList := by
  cases hname : assignedName? text with
  | none => simp [newNames, hname]
  | some name =>
    rw [Option.filter_some]
    cases hmeaning : v.meaning? name false <;> simp [newNames, hname, hmeaning, List.eraseDups_cons]

/-- A name that has been left behind counts no more for the texts after it. -/
theorem newNames_cons {text : String} (h : Learns (v.newNames [text]) v w) (texts : List String) :
    v.newNames (text :: texts) = v.newNames [text] ++ w.newNames texts := by
  have hkept : v.newNames [text] = [] → w.newNames texts = v.newNames texts := fun hnames => by
    rw [hnames] at h
    simp only [newNames, h.meaning?_eq]
  rw [newNames_singleton] at h hkept ⊢
  cases hname : assignedName? text with
  | none =>
    rw [hname] at hkept
    rw [hkept rfl]
    simp [newNames, hname]
  | some name =>
    cases hmeaning : v.meaning? name false with
    | some source =>
      rw [hname, Option.filter_some, hmeaning] at hkept
      rw [hkept rfl]
      simp [newNames, hname, hmeaning]
    | none =>
      rw [hname, Option.filter_some, hmeaning] at h
      have hlearns : Learns [name] v w := h
      have hunknown : ∀ other, (w.meaning? other false).isNone =
          (!other == name && (v.meaning? other false).isNone) := by
        intro other
        by_cases hother : other = name
        · obtain ⟨source, hsource, -⟩ := hlearns.known name List.mem_cons_self
          simp [hother, hsource]
        · rw [hlearns.others other false (.inl (by simpa using hother))]
          simp [hother]
      rw [Option.filter_some]
      simp [newNames, hname, hmeaning, hunknown, List.eraseDups_cons, List.filter_filter]

theorem learns_of_error {text : String} {cause : SyntaxError} (h : ofText? text v = (.error cause, w)) :
    Learns [] v w := by
  refine compile_error_reading learns_reading (ofText?_eq_error_iff.mp h) fun name t t' hnone => ?_
  have hassigned := resolveAssign_assigned name t
  change resolveAssign name t = (none, t') at hnone
  rw [hnone] at hassigned
  cases hassigned with
  | readOnly _ _ hlearns => exact hlearns
  | reserved _ _ => exact .refl t

/-- A text that compiles leaves the name that it assigns behind, unless that means something. -/
theorem learns_of_ok {text : String} {e : Expression} (h : ofText? text v = (.ok e, w)) :
    Learns (v.newNames [text]) v w := by
  obtain ⟨c, hcompile, -⟩ := ofText?_eq_ok_iff.mp h
  rw [newNames_singleton, assignedName?]
  cases hsplit : splitAssignment none text.toList with
  | none =>
    obtain ⟨hvalue, -⟩ := (compile_eq_ok_iff_of_not_split hsplit).mp hcompile
    have hread := compileValue_reading learns_reading text.toList v
    rw [hvalue] at hread
    exact hread
  | some parts =>
    obtain ⟨target, value⟩ := parts
    obtain ⟨u, i, hvalue, -, hassign, -⟩ := (compile_eq_ok_iff_of_split hsplit).mp hcompile
    have hread := compileValue_reading learns_reading value v
    rw [hvalue] at hread
    generalize hname : String.ofList (Text.trim target) = name at hassign
    rw [Option.map_some, hname, Option.filter_some]
    have hassigned := resolveAssign_assigned name u
    change resolveAssign name u = (some i, w) at hassign
    rw [hassign] at hassigned
    cases hassigned with
    | written hmeaning _ hlearns =>
      rw [hread.meaning?_eq] at hmeaning
      rw [hmeaning]
      exact hread.trans hlearns
    | created hlearns =>
      have hunknown := (hlearns.unknown name List.mem_cons_self).1
      rw [hread.meaning?_eq] at hunknown
      rw [hunknown]
      exact hread.trans hlearns

/-- Whether a name can be written, if it means anything. -/
def access? (v : Variables ο) (name : String) (group : Bool) : Option Bool :=
  (v.meaning? name group).map Source.isWritable

theorem Learns.access?_eq (h : Learns [] v w) (name : String) (group : Bool) :
    w.access? name group = v.access? name group := by
  rw [access?, access?, h.meaning?_eq]

theorem isSome_resolveRead (name : String) (v : Variables ο) :
    (resolveRead name v).1.isSome = (v.access? name false).isSome := by
  rw [(resolveRead_known name v).isSome_eq, access?, Option.isSome_map]

theorem isSome_resolveArray (name : String) (v : Variables ο) :
    (resolveArray name v).1.isSome = ((v.access? name true).isSome || (v.access? name false).isSome) := by
  rw [access?, Option.isSome_map]
  cases hmeaning : v.meaning? name true with
  | some source => rw [(resolveArray_known (by rw [hmeaning]; rfl)).isSome_eq, hmeaning]; rfl
  | none => rw [resolveArray_of_unknown hmeaning, isSome_resolveRead]; rfl

theorem isSome_resolveAssign (name : String) (v : Variables ο) :
    (resolveAssign name v).1.isSome = (v.access? name false).getD (v.isFree name) := by
  have hassigned := resolveAssign_assigned name v
  generalize resolveAssign name v = r at hassigned
  rw [access?]
  cases hassigned with
  | written hmeaning hwritable _ => rw [hmeaning, Option.map_some, hwritable]; rfl
  | readOnly hmeaning hwritable _ => rw [hmeaning, Option.map_some, hwritable]; rfl
  | created hlearns =>
    obtain ⟨hmeaning, hfree⟩ := hlearns.unknown name List.mem_cons_self
    rw [hmeaning, hfree]
    rfl
  | reserved hmeaning hfree => rw [hmeaning, hfree]; rfl

/-- An assignment makes its target known, and changes nothing else. -/
theorem access?_resolveAssign_self (name : String) (v : Variables ο) :
    (resolveAssign name v).2.access? name false =
      (v.access? name false).or (if v.isFree name then some true else none) := by
  have hassigned := resolveAssign_assigned name v
  generalize resolveAssign name v = r at hassigned
  cases hassigned with
  | written hmeaning _ hlearns =>
    rw [hlearns.access?_eq, access?, hmeaning]
    rfl
  | readOnly hmeaning _ hlearns =>
    rw [hlearns.access?_eq, access?, hmeaning]
    rfl
  | created hlearns =>
    obtain ⟨hmeaning, hfree⟩ := hlearns.unknown name List.mem_cons_self
    obtain ⟨source, hsource, hwritable⟩ := hlearns.known name List.mem_cons_self
    rw [access?, access?, hmeaning, hfree, hsource, Option.map_some, hwritable]
    rfl
  | reserved hmeaning hfree =>
    rw [access?, hmeaning, hfree]
    rfl

theorem access?_resolveAssign_of_ne (hne : other ≠ name ∨ group = true) (v : Variables ο) :
    (resolveAssign name v).2.access? other group = v.access? other group := by
  have hassigned := resolveAssign_assigned name v
  generalize resolveAssign name v = r at hassigned
  cases hassigned with
  | written _ _ hlearns => exact hlearns.access?_eq other group
  | readOnly _ _ hlearns => exact hlearns.access?_eq other group
  | created hlearns => rw [access?, access?, hlearns.others other group (by simpa using hne)]
  | reserved _ _ => rfl

theorem matrices_resolveAssign (name : String) (v : Variables ο) :
    (resolveAssign name v).2.matrices = v.matrices := (resolveAssign_settles name v).matrices

/-- The variables `w` know the names, and `v` knows them or will get them when they are assigned. All
other names are known to both alike. -/
structure Ahead (names : List String) (v w : Variables ο) : Prop where
  matrices : w.matrices = v.matrices
  others : ∀ name group, name ∉ names ∨ group = true → w.access? name group = v.access? name group
  known : ∀ name ∈ names, w.access? name false = some true
  behind : ∀ name ∈ names, v.access? name false = some true ∨
    v.access? name false = none ∧ v.isFree name = true

theorem Learns.ahead (h : Learns names v w) : Ahead names v w where
  matrices := h.matrices
  others name group hname := by rw [access?, access?, h.others name group hname]
  known name hname := by
    obtain ⟨source, hsource, hwritable⟩ := h.known name hname
    rw [access?, hsource, Option.map_some, hwritable]
  behind name hname := by
    obtain ⟨hmeaning, hfree⟩ := h.unknown name hname
    exact .inr ⟨by rw [access?, hmeaning]; rfl, hfree⟩

namespace Ahead

theorem learns (h : Ahead names v w) (hv : Learns [] v v') (hw : Learns [] w w') :
    Ahead names v' w' where
  matrices := by rw [hw.matrices, h.matrices, hv.matrices]
  others name group hname := by rw [hw.access?_eq, hv.access?_eq, h.others name group hname]
  known name hname := by rw [hw.access?_eq, h.known name hname]
  behind name hname := by
    rw [hv.access?_eq, isFree_congr hv.matrices]
    exact h.behind name hname

theorem resolveAssign (h : Ahead names v w) (name : String) :
    Ahead names (resolveAssign name v).2 (resolveAssign name w).2 := by
  have hfree := isFree_congr h.matrices name
  refine ⟨?_, fun other group hother => ?_, fun other hother => ?_, fun other hother => ?_⟩
  · rw [matrices_resolveAssign, matrices_resolveAssign, h.matrices]
  · by_cases hself : other = name ∧ group = false
    · obtain ⟨rfl, rfl⟩ := hself
      rw [access?_resolveAssign_self, access?_resolveAssign_self, h.others other false hother, hfree]
    · have hne : other ≠ name ∨ group = true := by
        rw [not_and_or, Bool.not_eq_false] at hself
        exact hself
      rw [access?_resolveAssign_of_ne hne, access?_resolveAssign_of_ne hne, h.others other group hother]
  · by_cases hself : other = name
    · subst hself
      rw [access?_resolveAssign_self, h.known other hother]
      rfl
    · rw [access?_resolveAssign_of_ne (.inl hself), h.known other hother]
  · rw [isFree_congr (matrices_resolveAssign name v)]
    by_cases hself : other = name
    · subst hself
      rw [access?_resolveAssign_self]
      obtain hwritten | ⟨hunknown, hother⟩ := h.behind other hother
      · rw [hwritten]
        exact .inl rfl
      · rw [hunknown, hother]
        exact .inl rfl
    · rw [access?_resolveAssign_of_ne (.inl hself)]
      exact h.behind other hother

end Ahead

/-- Names that only `w` knows make no difference as long as they are not read. -/
theorem indistinct_ahead (names : List String) : Indistinct (· ∉ names) (@Ahead ο names) where
  read name v w hname h := by
    refine .of_isSome ?_ (h.learns (learns_reading.read name v) (learns_reading.read name w))
    have haccess := h.others name false (.inl hname)
    exact (isSome_resolveRead name v).trans (haccess ▸ (isSome_resolveRead name w).symm)
  array name v w hname h := by
    refine .of_isSome ?_ (h.learns (learns_reading.array name v) (learns_reading.array name w))
    change (Variables.resolveArray name v).1.isSome = (Variables.resolveArray name w).1.isSome
    rw [isSome_resolveArray, isSome_resolveArray, h.others name false (.inl hname),
      h.others name true (.inl hname)]
  assign name v w h := by
    refine .of_isSome ?_ (h.resolveAssign name)
    change (Variables.resolveAssign name v).1.isSome = (Variables.resolveAssign name w).1.isSome
    rw [isSome_resolveAssign, isSome_resolveAssign, isFree_congr h.matrices]
    by_cases hname : name ∈ names
    · rw [h.known name hname]
      obtain hwritten | ⟨hunknown, hfree⟩ := h.behind name hname
      · rw [hwritten]
      · rw [hunknown, hfree]
        rfl
    · rw [h.others name false (.inl hname)]

end ChoiceModel.Store.Variables
