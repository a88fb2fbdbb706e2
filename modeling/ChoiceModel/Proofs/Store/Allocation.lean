import ChoiceModel.Proofs.Store.Selection
import ChoiceModel.Proofs.Utility

/-! What a compilation may add to a data source. Names that are read change nothing but the list of
bindings. The target of an assignment is looked up last, when nothing can fail any more, and gets a
place of its own only if its name means nothing yet. -/

namespace ChoiceModel

open Expression Store

namespace Store

/-- The scalars `u` are those of `t` and a new one of the value 0, with the name and the index. -/
def Scalars.Creates (name : String) (i : Nat) (t u : Scalars) : Prop :=
  t.indexOf? name = none ∧ i = t.size ∧ u = ⟨t.entries.push (name, 0.0)⟩

/-- The columns of `u` are those of `t` and a new one of zeros, with the name and the index. -/
def DataTable.Creates (name : String) (i : Nat) (t u : DataTable) : Prop :=
  t.indexOf? name = none ∧ i = t.columns.size ∧
    u = { t with columns := t.columns.push (name, .replicate t.rows 0.0) }

theorem Scalars.allocate_eq (t : Scalars) (name : String) :
    t = (t.allocate name).2 ∨ Scalars.Creates name (t.allocate name).1 t (t.allocate name).2 := by
  unfold allocate
  split
  · exact .inl rfl
  · exact .inr ⟨by assumption, rfl, rfl⟩

theorem DataTable.allocate_eq (t : DataTable) (name : String) :
    t = (t.allocate name).2 ∨ DataTable.Creates name (t.allocate name).1 t (t.allocate name).2 := by
  unfold allocate
  split
  · exact .inl rfl
  · exact .inr ⟨by assumption, rfl, rfl⟩

namespace Variables

variable {ο : Type} {u v w : Variables ο} {name : String} {i : Nat}

/-- The variables `w` are `v` with further bindings, all of them to data that `v` has. -/
def Bound (v w : Variables ο) : Prop :=
  ∃ added : Array Binding, (∀ b ∈ added, v.Supports b) ∧
    w = { v with bindings := v.bindings ++ added }

/-- The variables `w` are `v` with further bindings to data that `v` has, and then with a new scalar
of the value 0 and the binding at the index to it. Nothing had its name before. -/
def Creates (name : String) (i : Nat) (v w : Variables ο) : Prop :=
  v.source? name = none ∧ ∃ u slot scalars, v.Bound u ∧ v.scalars.Creates name slot scalars ∧
    i = u.bindings.size ∧ w = { u with scalars, bindings := u.bindings.push ⟨name, .scalar slot⟩ }

theorem Bound.refl (v : Variables ο) : v.Bound v := by
  refine ⟨#[], fun b hb => ?_, ?_⟩
  · cases Array.not_mem_empty b hb
  · rw [Array.append_empty]

theorem Bound.trans (h : u.Bound v) (h' : v.Bound w) : u.Bound w := by
  obtain ⟨added, hadded, rfl⟩ := h
  obtain ⟨more, hmore, rfl⟩ := h'
  refine ⟨added ++ more, fun b hb => ?_, by rw [Array.append_assoc]⟩
  rcases Array.mem_append.mp hb with hb | hb
  · exact hadded b hb
  · exact hmore b hb

theorem Bound.bind {b : Binding} (hb : v.Supports b) : v.Bound (v.bind b).2 := by
  refine ⟨#[b], fun b' hb' => ?_, rfl⟩
  cases List.mem_singleton.mp (Array.mem_def.mp hb')
  exact hb

theorem Creates.of_bound (h : u.Bound v) (h' : Creates name i v w) : Creates name i u w := by
  obtain ⟨added, hadded, rfl⟩ := h
  obtain ⟨hnone, u', slot, scalars, hbound, hcreates, hi, hw⟩ := h'
  exact ⟨hnone, u', slot, scalars, Bound.trans ⟨added, hadded, rfl⟩ hbound, hcreates, hi, hw⟩

theorem resolveRead_bound (name : String) (v : Variables ο) : v.Bound (resolveRead name v).2 := by
  unfold resolveRead
  split
  · exact .refl v
  · split
    · rename_i source hsource
      exact .bind (supports_source? hsource).1
    · exact .refl v

theorem resolveArray_bound (name : String) (v : Variables ο) : v.Bound (resolveArray name v).2 := by
  unfold resolveArray
  split
  · exact .refl v
  · split
    · rename_i source hsource
      exact .bind (supports_matrixSource? (Option.filter_eq_some_iff.mp hsource).1)
    · exact resolveRead_bound name v

theorem isPlain_of_isFree (h : v.isFree name = true) : isPlain name = true := by
  rw [isFree, Bool.and_eq_true, Bool.and_eq_true] at h
  exact h.1.1

/-- A name without a source is the name of no scalar, unless it is set apart by its first letter. -/
theorem indexOf?_eq_none_of_free (hsource : v.source? name = none) (hfree : v.isFree name = true) :
    v.scalars.indexOf? name = none := by
  rw [source?_eq_findSome?, List.findSome?_eq_none_iff] at hsource
  have hscalar := hsource .scalar (by simp [Kind.values])
  rw [among?, if_pos (isPlain_of_isFree hfree)] at hscalar
  exact Option.map_eq_none_iff.mp hscalar

theorem resolveRead_of_bindingOf? (h : v.bindingOf? name false = some i) :
    resolveRead name v = (some i, v) := by
  rw [resolveRead, h]

theorem resolveRead_of_source? (hnone : v.bindingOf? name false = none)
    (hsource : v.source? name = some source) : resolveRead name v = v.bind ⟨name, source⟩ := by
  rw [resolveRead, hnone]
  simp only [hsource]

theorem resolveRead_of_none (hnone : v.bindingOf? name false = none)
    (hsource : v.source? name = none) : resolveRead name v = (none, v) := by
  rw [resolveRead, hnone]
  simp only [hsource]

theorem resolveArray_of_bindingOf? (h : v.bindingOf? name true = some i) :
    resolveArray name v = (some i, v) := by
  rw [resolveArray, h]

theorem resolveArray_of_group (hnone : v.bindingOf? name true = none)
    (hsource : v.among? name .group = some source) :
    resolveArray name v = v.bind ⟨name, source⟩ := by
  rw [among?] at hsource
  rw [resolveArray, hnone]
  simp only [hsource]

theorem resolveArray_of_none (hnone : v.bindingOf? name true = none)
    (hsource : v.among? name .group = none) : resolveArray name v = resolveRead name v := by
  rw [among?] at hsource
  rw [resolveArray, hnone]
  simp only [hsource]

theorem unknown_of_resolveRead (h : (resolveRead name v).1 = none) :
    v.bindingOf? name false = none ∧ v.source? name = none := by
  unfold resolveRead at h
  split at h
  · cases h
  · split at h
    · cases h
    · exact ⟨by assumption, by assumption⟩

/-- The target of an assignment is what can be read under its name. A name that means nothing is
refused, or gets a new scalar. -/
theorem resolveAssign_cases (name : String) (v : Variables ο) :
    (∃ i w, resolveRead name v = (some i, w) ∧ resolveAssign name v =
        (if w.bindings[i]?.any fun b => b.source.isWritable then some i else none, w)) ∨
      resolveRead name v = (none, v) ∧
        (v.isFree name = false ∧ resolveAssign name v = (none, v) ∨
          v.isFree name = true ∧ v.scalars.indexOf? name = none ∧
            resolveAssign name v = (some v.bindings.size,
              { v with
                scalars := ⟨v.scalars.entries.push (name, 0.0)⟩
                bindings := v.bindings.push ⟨name, .scalar v.scalars.size⟩ })) := by
  rcases hread : resolveRead name v with ⟨_ | i, w⟩
  · cases resolveRead_eq_none hread
    obtain ⟨hbinding, hsource⟩ := unknown_of_resolveRead (congrArg Prod.fst hread)
    cases hfree : v.isFree name with
    | true =>
      have hnew := indexOf?_eq_none_of_free hsource hfree
      exact .inr ⟨rfl, .inr ⟨rfl, hnew, resolveAssign_of_free hbinding hsource hfree hnew⟩⟩
    | false =>
      refine .inr ⟨rfl, .inl ⟨rfl, ?_⟩⟩
      rw [resolveAssign, hread]
      simp only [hfree, Bool.false_eq_true, if_false]
  · refine .inl ⟨i, w, rfl, ?_⟩
    rw [resolveAssign, hread]

theorem resolveAssign_eq (name : String) (v : Variables ο) :
    v.Bound (resolveAssign name v).2 ∨
      ∃ i, (resolveAssign name v).1 = some i ∧ Creates name i v (resolveAssign name v).2 := by
  obtain ⟨i, w, hread, hassign⟩ | ⟨hread, ⟨-, hassign⟩ | ⟨-, hnew, hassign⟩⟩ :=
    resolveAssign_cases name v
  · have hbound := resolveRead_bound name v
    rw [hread] at hbound
    rw [hassign]
    exact .inl hbound
  · rw [hassign]
    exact .inl (.refl v)
  · have hsource := (unknown_of_resolveRead (congrArg Prod.fst hread)).2
    rw [hassign]
    exact .inr ⟨_, rfl, hsource, v, _, _, .refl v, ⟨hnew, rfl, rfl⟩, rfl, rfl⟩

end Variables

end Store

namespace Expression

variable {σ : Type} [Resolver σ] {kept : σ → σ → Prop} {creates : String → Nat → σ → σ → Prop}

/-- How a data source resolves names: it stays as it is up to `kept`, unless a name that is assigned
gets a place of its own. -/
structure Allocating (kept : σ → σ → Prop) (creates : String → Nat → σ → σ → Prop) : Prop
    extends Reading kept where
  assign : ∀ name s, kept s (Resolver.resolveAssign name s).2 ∨
    ∃ i, (Resolver.resolveAssign name s).1 = some i ∧
      creates name i s (Resolver.resolveAssign name s).2
  creates_of_kept : ∀ name i s t u, kept s t → creates name i t u → creates name i s u

/-- What compiling a text makes of a data source: only an expression that compiles creates anything,
and this is the target of its assignment. -/
structure CreatesTarget (kept : σ → σ → Prop) (creates : String → Nat → σ → σ → Prop) (text : String)
    (s : σ) : Prop where
  failed : ∀ err t, ofText? text s = (.error err, t) → kept s t
  compiled : ∀ e t, ofText? text s = (.ok e, t) → kept s t ∨
    ∃ name i, assignedName? text = some name ∧ e.target? = some i ∧ creates name i s t

theorem Allocating.createsTarget (h : Allocating kept creates) (text : String) (s : σ) :
    CreatesTarget kept creates text s := by
  constructor
  · intro err t hfailed
    have hcompile := ofText?_eq_error_iff.mp hfailed
    refine compile_error_reading h.toReading hcompile fun name t t' hnone => ?_
    obtain hkept | ⟨i, hi, -⟩ := h.assign name t
    · rwa [hnone] at hkept
    · rw [hnone] at hi
      cases hi
  · intro e t hcompiled
    obtain ⟨c, hcompile, rfl⟩ := ofText?_eq_ok_iff.mp hcompiled
    obtain hkept | ⟨name, s₁, i, hname, hkept, hassign, htarget⟩ :=
      compile_ok_reading h.toReading hcompile
    · exact .inl hkept
    · obtain hkept' | ⟨j, hj, hcreates⟩ := h.assign name s₁
      · rw [hassign] at hkept'
        exact .inl (h.trans _ _ _ hkept hkept')
      · rw [hassign] at hj hcreates
        cases hj
        exact .inr ⟨name, i, hname, htarget, h.creates_of_kept _ _ _ _ _ hkept hcreates⟩

end Expression

namespace Store

theorem Scalars.allocating : Allocating Eq Scalars.Creates where
  refl _ := rfl
  trans _ _ _ := Eq.trans
  read _ _ := rfl
  array _ _ := rfl
  assign name t := (t.allocate_eq name).imp_right fun h => ⟨_, rfl, h⟩
  creates_of_kept := by
    rintro _ _ _ _ _ rfl h
    exact h

theorem DataTable.allocating : Allocating Eq DataTable.Creates where
  refl _ := rfl
  trans _ _ _ := Eq.trans
  read _ _ := rfl
  array _ _ := rfl
  assign name t := (t.allocate_eq name).imp_right fun h => ⟨_, rfl, h⟩
  creates_of_kept := by
    rintro _ _ _ _ _ rfl h
    exact h

theorem Variables.allocating {ο : Type} : Allocating (@Variables.Bound ο) Variables.Creates where
  refl := .refl
  trans _ _ _ := .trans
  read := resolveRead_bound
  array := resolveArray_bound
  assign := resolveAssign_eq
  creates_of_kept _ _ _ _ _ := .of_bound

end Store

namespace Expression

/-- A text that does not compile leaves scalars and tables as they were, and adds to variables no more
than bindings to what they have. One that compiles may also add the name that it assigns. -/
theorem ofText?_createsTarget {ο : Type} (text : String) :
    (∀ t : Scalars, CreatesTarget Eq Scalars.Creates text t) ∧
      (∀ t : DataTable, CreatesTarget Eq DataTable.Creates text t) ∧
      ∀ v : Variables ο, CreatesTarget Variables.Bound Variables.Creates text v :=
  ⟨Scalars.allocating.createsTarget text, DataTable.allocating.createsTarget text,
    Variables.allocating.createsTarget text⟩

set_option maxRecDepth 20000 in
example : ofText? "$alt +" ({} : Variables Unit) =
    (.error (.malformed (.missingOperand (.operator .add)) 6),
      { bindings := #[⟨"$alt", .loop .alternative⟩] }) := by
  cbv

end Expression

end ChoiceModel
