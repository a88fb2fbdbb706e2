import ChoiceModel.Proofs.Fallible
import ChoiceModel.Proofs.Store.Names
import ChoiceModel.Store.Variables

/-! What resolving a name and writing a value leave alone. Bindings are only ever added, a name keeps
its scalar, and a binding to a scalar has the name of that scalar. -/

namespace ChoiceModel.Store

namespace Scalars

variable {t : Scalars} {name other : String} {i j : Nat} {x : Float}

theorem indexOf?_eq_some (h : t.indexOf? name = some i) : ∃ x, t.entries[i]? = some (name, x) :=
  getElem?_of_findIdx? h

theorem eq_of_indexOf? (h : t.indexOf? name = some i) (h' : t.indexOf? other = some i) :
    name = other :=
  findIdx?_injective h h'

theorem indexOf?_push_self (h : t.indexOf? name = none) (x : Float) :
    (⟨t.entries.push (name, x)⟩ : Scalars).indexOf? name = some t.size := by
  rw [indexOf?] at h
  rw [indexOf?, Array.findIdx?_push, h, Option.none_or, if_pos (beq_self_eq_true name)]
  rfl

theorem indexOf?_allocate (t : Scalars) (name : String) :
    (t.allocate name).2.indexOf? name = some (t.allocate name).1 := by
  unfold allocate
  split
  · assumption
  · exact indexOf?_push_self ‹_› _

theorem indexOf?_allocate_of_eq_some (name : String) (h : t.indexOf? other = some j) :
    (t.allocate name).2.indexOf? other = some j := by
  unfold allocate
  split
  · exact h
  · exact KeepsNames.push _ _ _ _ h

theorem indexOf?_push_of_ne (h : other ≠ name) (x : Float) :
    (⟨t.entries.push (name, x)⟩ : Scalars).indexOf? other = t.indexOf? other := by
  rw [indexOf?, Array.findIdx?_push, if_neg (by simpa using Ne.symm h), Option.or_none]
  rfl

theorem indexOf?_setAt (t : Scalars) (i : Nat) (x : Float) (name : String) :
    (t.setAt i x).indexOf? name = t.indexOf? name :=
  findIdx?_of_map_fst (map_fst_modify _ _ _) name

theorem value?_setAt_self (h : i < t.size) : (t.setAt i x).value? i = some x := by
  have hentry : t.entries[i]? = some t.entries[i] := Array.getElem?_eq_getElem h
  rw [value?, setAt, Array.getElem?_modify, if_pos rfl, hentry]
  rfl

theorem value?_setAt_of_ne (h : i ≠ j) : (t.setAt i x).value? j = t.value? j := by
  rw [value?, setAt, Array.getElem?_modify, if_neg h]
  rfl

theorem read_setAt (h : i < t.size) (x : Float) (j : Nat) :
    (t.setAt i x).read j = if j = i then .ok x else t.read j := by
  unfold read
  split_ifs with heq
  · rw [heq, value?_setAt_self h]
  · rw [value?_setAt_of_ne (Ne.symm heq)]

theorem get?_setAt_self (h : t.indexOf? name = some i) (x : Float) :
    (t.setAt i x).get? name = some x := by
  obtain ⟨_, hentry⟩ := indexOf?_eq_some h
  obtain ⟨hlt, -⟩ := Array.getElem?_eq_some_iff.mp hentry
  rw [get?, indexOf?_setAt, h]
  exact value?_setAt_self hlt

theorem get?_setAt_of_ne (h : t.indexOf? name = some i) (hne : other ≠ name) (x : Float) :
    (t.setAt i x).get? other = t.get? other := by
  rw [get?, get?, indexOf?_setAt]
  cases hother : t.indexOf? other with
  | none => rfl
  | some j =>
    have hij : i ≠ j := by
      rintro rfl
      exact hne (eq_of_indexOf? hother h)
    exact value?_setAt_of_ne hij

theorem write_eq_ok {s : Scalars} (h : t.write i x = .ok s) : i < t.size ∧ s = t.setAt i x := by
  rw [write] at h
  split at h
  · cases h
    exact ⟨by assumption, rfl⟩
  · cases h

end Scalars

namespace Variables

variable {ο : Type} {u v w : Variables ο} {name : String} {i : Nat}

/-- A binding to a scalar has the name of that scalar. -/
def Coherent (v : Variables ο) : Prop :=
  ∀ (i : Nat) b slot, v.bindings[i]? = some b → b.source = .scalar slot →
    v.scalars.indexOf? b.name = some slot

/-- The variables `w` have every binding and every scalar of `v` in its place, and stay coherent. -/
structure Extends (v w : Variables ο) : Prop where
  bindings : ∀ (i : Nat) b, v.bindings[i]? = some b → w.bindings[i]? = some b
  scalars : ∀ name slot, v.scalars.indexOf? name = some slot → w.scalars.indexOf? name = some slot
  coherent : v.Coherent → w.Coherent

theorem Extends.refl (v : Variables ο) : v.Extends v := ⟨fun _ _ h => h, fun _ _ h => h, id⟩

theorem Extends.trans (h : u.Extends v) (h' : v.Extends w) : u.Extends w :=
  ⟨fun i b hb => h'.bindings i b (h.bindings i b hb),
    fun name slot hs => h'.scalars name slot (h.scalars name slot hs),
    fun hu => h'.coherent (h.coherent hu)⟩

/-- What resolving `name` to the index `i` has done. -/
structure Resolved (name : String) (i : Nat) (v w : Variables ο) : Prop where
  extended : v.Extends w
  named : ∃ b, w.bindings[i]? = some b ∧ b.name = name

theorem resolved_bindingOf? {group : Bool} (h : v.bindingOf? name group = some i) :
    Resolved name i v v := by
  obtain ⟨hlt, hbinding, -⟩ := Array.findIdx?_eq_some_iff_getElem.mp h
  have hname : v.bindings[i].name = name := beq_iff_eq.mp (Bool.and_eq_true_iff.mp hbinding).1
  exact ⟨.refl v, _, Array.getElem?_eq_getElem hlt, hname⟩

theorem getElem?_bind {b b' : Binding} (h : v.bindings[i]? = some b') :
    (v.bind b).2.bindings[i]? = some b' := by
  obtain ⟨hlt, -⟩ := Array.getElem?_eq_some_iff.mp h
  rw [bind, Array.getElem?_push, if_neg (Nat.ne_of_lt hlt)]
  exact h

theorem resolved_bind {b : Binding} (hb : b.name = name)
    (hsource : ∀ slot, b.source = .scalar slot → v.scalars.indexOf? b.name = some slot)
    (h : v.bind b = (some i, w)) : Resolved name i v w := by
  cases h
  refine ⟨⟨fun _ _ => getElem?_bind, fun _ _ hs => hs, fun hcoherent j b' slot hj hslot => ?_⟩, b,
    ?_, hb⟩
  · rw [Array.getElem?_push] at hj
    split at hj
    · cases hj
      exact hsource slot hslot
    · exact hcoherent j b' slot hj hslot
  · exact Array.getElem?_push_size

theorem matrixSource?_ne_scalar {source : Source} (h : v.matrixSource? name = some source)
    (slot : Nat) : source ≠ .scalar slot := by
  unfold matrixSource? at h
  split at h
  · split at h <;> (cases h; exact Source.noConfusion)
  · cases h

theorem source?_eq_scalar {slot : Nat} (h : v.source? name = some (.scalar slot)) :
    v.scalars.indexOf? name = some slot := by
  unfold source? at h
  split at h
  · obtain ⟨l, -, hl⟩ := Option.map_eq_some_iff.mp h
    cases hl
  · obtain ⟨l, -, hl⟩ := Option.map_eq_some_iff.mp h
    cases hl
  · obtain ⟨l, -, hl⟩ := Option.map_eq_some_iff.mp h
    cases hl
  · simp only [Option.orElse_eq_orElse, Option.orElse_eq_or, Option.or_eq_some_iff,
      Option.map_eq_some_iff, Option.map_eq_none_iff] at h
    rcases h with ⟨s, hs, heq⟩ | ⟨-, h⟩
    · cases heq
      exact hs
    · rcases h with ⟨_, -, heq⟩ | ⟨-, ⟨_, -, heq⟩ | ⟨-, ⟨_, -, heq⟩ | ⟨-, hmatrix⟩⟩⟩
      · cases heq
      · cases heq
      · cases heq
      · obtain ⟨hmatrix, -⟩ := Option.filter_eq_some_iff.mp hmatrix
        exact (matrixSource?_ne_scalar hmatrix slot rfl).elim

theorem resolveRead_eq_some (h : resolveRead name v = (some i, w)) : Resolved name i v w := by
  unfold resolveRead at h
  split at h
  · rename_i j hbinding
    cases h
    exact resolved_bindingOf? hbinding
  · split at h
    · rename_i source hsource
      refine resolved_bind rfl (fun slot heq => ?_) h
      cases heq
      exact source?_eq_scalar hsource
    · cases h

theorem resolveRead_eq_none (h : resolveRead name v = (none, w)) : w = v := by
  unfold resolveRead at h
  split at h
  · cases h
  · split at h
    · cases h
    · cases h
      rfl

theorem resolveArray_eq_some (h : resolveArray name v = (some i, w)) : Resolved name i v w := by
  unfold resolveArray at h
  split at h
  · rename_i j hbinding
    cases h
    exact resolved_bindingOf? hbinding
  · split at h
    · rename_i source hsource
      obtain ⟨hsource, -⟩ := Option.filter_eq_some_iff.mp hsource
      exact resolved_bind rfl (fun slot heq => (matrixSource?_ne_scalar hsource slot heq).elim) h
    · exact resolveRead_eq_some h

theorem resolveAssign_eq_some (h : resolveAssign name v = (some i, w)) : Resolved name i v w := by
  unfold resolveAssign at h
  split at h
  · rename_i j v' hread
    split at h
    · cases h
      exact resolveRead_eq_some hread
    · cases h
  · rename_i v' hread
    cases resolveRead_eq_none hread
    split at h
    · rcases hallocate : v.scalars.allocate name with ⟨slot, scalars⟩
      rw [hallocate] at h
      simp only at h
      have hnew : scalars.indexOf? name = some slot := by
        have := Scalars.indexOf?_allocate v.scalars name
        rw [hallocate] at this
        exact this
      have hold : ∀ other j, v.scalars.indexOf? other = some j → scalars.indexOf? other = some j := by
        intro other j hj
        have := Scalars.indexOf?_allocate_of_eq_some name hj
        rw [hallocate] at this
        exact this
      have hbind := resolved_bind (v := { v with scalars }) rfl
        (fun slot' heq => by cases heq; exact hnew) h
      refine ⟨⟨hbind.extended.bindings, fun other j hj => ?_, fun hcoherent => ?_⟩, hbind.named⟩
      · exact hbind.extended.scalars other j (hold other j hj)
      · refine hbind.extended.coherent fun j b slot hj hslot => ?_
        exact hold _ _ (hcoherent j b slot hj hslot)
    · cases h

theorem resolveRead_extends (name : String) (v : Variables ο) :
    v.Extends (resolveRead name v).2 := by
  rcases h : resolveRead name v with ⟨r, w⟩
  cases r with
  | none =>
    cases resolveRead_eq_none h
    exact .refl v
  | some i => exact (resolveRead_eq_some h).extended

theorem resolveArray_extends (name : String) (v : Variables ο) :
    v.Extends (resolveArray name v).2 := by
  rcases h : resolveArray name v with ⟨r, w⟩
  cases r with
  | none =>
    unfold resolveArray at h
    split at h
    · cases h
    · split at h
      · cases h
      · cases resolveRead_eq_none h
        exact .refl v
  | some i => exact (resolveArray_eq_some h).extended

theorem resolveAssign_extends (name : String) (v : Variables ο) :
    v.Extends (resolveAssign name v).2 := by
  rcases h : resolveAssign name v with ⟨r, w⟩
  cases r with
  | none =>
    unfold resolveAssign at h
    split at h
    · rename_i i u hread
      obtain ⟨-, rfl⟩ := Prod.mk.inj h
      exact (resolveRead_eq_some hread).extended
    · rename_i u hread
      cases resolveRead_eq_none hread
      split at h
      · cases h
      · cases h
        exact .refl v
  | some i => exact (resolveAssign_eq_some h).extended

/-- A name without any source becomes a scalar with the value 0. -/
theorem resolveAssign_of_free (hbinding : v.bindingOf? name false = none)
    (hsource : v.source? name = none) (hfree : v.isFree name = true)
    (hnew : v.scalars.indexOf? name = none) :
    resolveAssign name v = (some v.bindings.size,
      { v with
        scalars := ⟨v.scalars.entries.push (name, 0.0)⟩
        bindings := v.bindings.push ⟨name, .scalar v.scalars.size⟩ }) := by
  have hread : resolveRead name v = (none, v) := by
    unfold resolveRead
    rw [hbinding]
    simp only [hsource]
  unfold resolveAssign
  rw [hread]
  simp only [hfree, Scalars.allocate, hnew, if_true]
  rfl

/-- The variables `w` differ from `v` at most in values. -/
structure SameNames (v w : Variables ο) : Prop where
  bindings : w.bindings = v.bindings
  scalars : ∀ name, w.scalars.indexOf? name = v.scalars.indexOf? name

theorem SameNames.refl (v : Variables ο) : v.SameNames v := ⟨rfl, fun _ => rfl⟩

theorem SameNames.trans (h : u.SameNames v) (h' : v.SameNames w) : u.SameNames w :=
  ⟨h'.bindings.trans h.bindings, fun name => (h'.scalars name).trans (h.scalars name)⟩

theorem SameNames.coherent (h : v.SameNames w) (hv : v.Coherent) : w.Coherent := by
  intro i b slot hb hslot
  rw [h.bindings] at hb
  rw [h.scalars]
  exact hv i b slot hb hslot

theorem SameNames.toExtends (h : v.SameNames w) : v.Extends w := by
  refine ⟨fun i b hb => ?_, fun name slot hslot => ?_, h.coherent⟩
  · rw [h.bindings]
    exact hb
  · rw [h.scalars]
    exact hslot

theorem sameNames_setAt (v : Variables ο) (slot : Nat) (x : Float) :
    v.SameNames { v with scalars := v.scalars.setAt slot x } :=
  ⟨rfl, Scalars.indexOf?_setAt v.scalars slot x⟩

/-- What storing a value under a binding makes of the variables. -/
inductive Stored (v : Variables ο) (name : String) (x : Float) (ctx : Context ο) :
    Source → Variables ο → Prop
  | scalar {slot : Nat} {scalars : Scalars} (hwrite : v.scalars.write slot x = .ok scalars) :
    Stored v name x ctx (.scalar slot) { v with scalars }
  | zone {column row : Nat} {place : Place} {zones : DataTable}
    (hrow : zoneRow name place ctx = .ok row) (hwrite : v.zones.write column row x = .ok zones) :
    Stored v name x ctx (.zone column place) { v with zones }
  | household {column row : Nat} {households : DataTable} (hrow : householdRow name ctx = .ok row)
    (hwrite : v.households.write column row x = .ok households) :
    Stored v name x ctx (.household column) { v with households }
  | alternative {column row : Nat} {alternatives : DataTable}
    (hrow : alternativeRow name ctx = .ok row)
    (hwrite : v.alternatives.write column row x = .ok alternatives) :
    Stored v name x ctx (.alternative column) { v with alternatives }

theorem write_eq_ok {x : Float} {ctx : Context ο} (h : v.write i x ctx = .ok w) :
    ∃ name source, v.bindings[i]? = some ⟨name, source⟩ ∧ v.Stored name x ctx source w := by
  unfold write at h
  split at h
  · cases h
  · rename_i name source hb
    refine ⟨name, source, hb, ?_⟩
    split at h
    · obtain ⟨scalars, hwrite, h⟩ := exists_of_bind_eq_ok h
      cases h
      exact .scalar hwrite
    · obtain ⟨row, hrow, h⟩ := exists_of_bind_eq_ok h
      obtain ⟨zones, hwrite, h⟩ := exists_of_bind_eq_ok h
      cases h
      exact .zone hrow hwrite
    · obtain ⟨row, hrow, h⟩ := exists_of_bind_eq_ok h
      obtain ⟨households, hwrite, h⟩ := exists_of_bind_eq_ok h
      cases h
      exact .household hrow hwrite
    · obtain ⟨row, hrow, h⟩ := exists_of_bind_eq_ok h
      obtain ⟨alternatives, hwrite, h⟩ := exists_of_bind_eq_ok h
      cases h
      exact .alternative hrow hwrite
    · cases h

theorem write_sameNames {x : Float} {ctx : Context ο} (h : v.write i x ctx = .ok w) :
    v.SameNames w := by
  obtain ⟨name, source, -, hstored⟩ := write_eq_ok h
  cases hstored with
  | scalar hwrite =>
    obtain ⟨-, rfl⟩ := Scalars.write_eq_ok hwrite
    exact sameNames_setAt v _ x
  | zone _ _ => exact ⟨rfl, fun _ => rfl⟩
  | household _ _ => exact ⟨rfl, fun _ => rfl⟩
  | alternative _ _ => exact ⟨rfl, fun _ => rfl⟩

theorem write_rest {x : Float} {ctx : Context ο} (h : v.write i x ctx = .ok w) :
    w.matrices = v.matrices ∧ w.attributes = v.attributes := by
  obtain ⟨name, source, -, hstored⟩ := write_eq_ok h
  cases hstored with
  | scalar _ => exact ⟨rfl, rfl⟩
  | zone _ _ => exact ⟨rfl, rfl⟩
  | household _ _ => exact ⟨rfl, rfl⟩
  | alternative _ _ => exact ⟨rfl, rfl⟩

theorem write_scalar {x : Float} {ctx : Context ο} {b : Binding} {slot : Nat}
    (hb : v.bindings[i]? = some b) (hslot : b.source = .scalar slot)
    (h : v.write i x ctx = .ok w) :
    slot < v.scalars.size ∧ w = { v with scalars := v.scalars.setAt slot x } := by
  obtain ⟨name, source, hb', hstored⟩ := write_eq_ok h
  cases hb.symm.trans hb'
  cases hslot
  cases hstored with
  | scalar hwrite =>
    obtain ⟨hlt, rfl⟩ := Scalars.write_eq_ok hwrite
    exact ⟨hlt, rfl⟩

theorem read_scalars {s : Scalars}
    (h : ∀ b slot, v.bindings[i]? = some b → b.source = .scalar slot →
      s.value? slot = v.scalars.value? slot) (ctx : Context ο) :
    ({ v with scalars := s } : Variables ο).read i ctx = v.read i ctx := by
  unfold read
  cases hb : v.bindings[i]? with
  | none => rfl
  | some b =>
    obtain ⟨name, source⟩ := b
    cases source with
    | scalar slot =>
      show s.read slot = v.scalars.read slot
      rw [Scalars.read, Scalars.read, h _ slot hb rfl]
    | zone _ _ => rfl
    | household _ => rfl
    | alternative _ => rfl
    | matrix _ _ => rfl
    | member _ _ _ => rfl
    | array _ _ => rfl
    | collection _ _ => rfl
    | «attribute» _ _ => rfl
    | loop _ => rfl

theorem readIndexed_scalars (v : Variables ο) (s : Scalars) (i : Nat) (y : Float) (ctx : Context ο) :
    ({ v with scalars := s } : Variables ο).readIndexed i y ctx = v.readIndexed i y ctx := rfl

/-- The variables `w` differ from `v` at most in the values of scalars with the given names. -/
structure ChangesOnly (names : List String) (v w : Variables ο) : Prop where
  rest : w = { v with scalars := w.scalars }
  index : ∀ name, w.scalars.indexOf? name = v.scalars.indexOf? name
  value : ∀ name ∉ names, w.scalars.get? name = v.scalars.get? name

namespace ChangesOnly

variable {names names' : List String}

theorem refl (names : List String) (v : Variables ο) : ChangesOnly names v v :=
  ⟨rfl, fun _ => rfl, fun _ _ => rfl⟩

theorem trans (h : ChangesOnly names u v) (h' : ChangesOnly names' v w) :
    ChangesOnly (names ++ names') u w := by
  refine ⟨?_, fun name => (h'.index name).trans (h.index name), fun name hname => ?_⟩
  · rw [h'.rest, h.rest]
  · rw [List.mem_append, not_or] at hname
    exact (h'.value name hname.2).trans (h.value name hname.1)

theorem sameNames (h : ChangesOnly names v w) : v.SameNames w := by
  refine ⟨?_, h.index⟩
  rw [h.rest]

theorem read (h : ChangesOnly names v w) (hv : v.Coherent) {b : Binding}
    (hb : v.bindings[i]? = some b) (hname : b.name ∉ names) (ctx : Context ο) :
    w.read i ctx = v.read i ctx := by
  rw [h.rest]
  refine read_scalars (fun b' slot hb' hslot => ?_) ctx
  cases hb.symm.trans hb'
  have hget := h.value b.name hname
  rw [Scalars.get?, Scalars.get?, h.index, hv i b slot hb hslot] at hget
  exact hget

theorem readIndexed (h : ChangesOnly names v w) (i : Nat) (y : Float) (ctx : Context ο) :
    w.readIndexed i y ctx = v.readIndexed i y ctx := by
  rw [h.rest]
  exact readIndexed_scalars v w.scalars i y ctx

theorem setAt {name : String} {slot : Nat} (hslot : v.scalars.indexOf? name = some slot) (x : Float) :
    ChangesOnly [name] v { v with scalars := v.scalars.setAt slot x } := by
  refine ⟨rfl, Scalars.indexOf?_setAt v.scalars slot x, fun other hother => ?_⟩
  exact Scalars.get?_setAt_of_ne hslot (fun heq => hother (List.mem_singleton.mpr heq)) x

end ChangesOnly

end Variables

end ChoiceModel.Store
