import ChoiceModel.Proofs.Store.Variables

/-! Variables that differ in the values of some scalars, which are called stale: everything else reads
the same in both, and a scalar that is written in both is no longer stale. -/

namespace ChoiceModel.Store

variable {ο : Type}

namespace Variables

variable {u v w : Variables ο} {stale stale' : Nat → Prop} {i slot : Nat}

/-- The slot of the scalar that an index is bound to. -/
def scalarAt? (v : Variables ο) (i : Nat) : Option Nat :=
  match v.bindings[i]? with
  | some ⟨_, .scalar slot⟩ => some slot
  | _ => none

theorem scalarAt?_eq_some (h : v.scalarAt? i = some slot) :
    ∃ b, v.bindings[i]? = some b ∧ b.source = .scalar slot := by
  unfold scalarAt? at h
  split at h
  · rename_i hb
    cases h
    exact ⟨_, hb, rfl⟩
  · cases h

theorem scalarAt?_of_binding {b : Binding} (hb : v.bindings[i]? = some b)
    (hslot : b.source = .scalar slot) : v.scalarAt? i = some slot := by
  obtain ⟨name, source⟩ := b
  cases hslot
  rw [scalarAt?, hb]

/-- Every binding of `v` is one of `w`. -/
def Keeps (v w : Variables ο) : Prop := ∀ (i : Nat) b, v.bindings[i]? = some b → w.bindings[i]? = some b

/-- The variables `w` differ from `v` at most in the values of stale scalars. -/
structure AgreesOff (stale : Nat → Prop) (v w : Variables ο) : Prop where
  rest : w = { v with scalars := w.scalars }
  size : w.scalars.size = v.scalars.size
  value : ∀ slot, ¬ stale slot → w.scalars.value? slot = v.scalars.value? slot

namespace AgreesOff

theorem refl (stale : Nat → Prop) (v : Variables ο) : AgreesOff stale v v :=
  ⟨rfl, rfl, fun _ _ => rfl⟩

theorem symm (h : AgreesOff stale v w) : AgreesOff stale w v := by
  refine ⟨?_, h.size.symm, fun slot hslot => (h.value slot hslot).symm⟩
  rw [h.rest]

theorem trans (h : AgreesOff stale u v) (h' : AgreesOff stale v w) : AgreesOff stale u w := by
  refine ⟨?_, h'.size.trans h.size, fun slot hslot =>
    (h'.value slot hslot).trans (h.value slot hslot)⟩
  rw [h'.rest, h.rest]

theorem mono (h : AgreesOff stale v w) (hstale : ∀ slot, stale slot → stale' slot) :
    AgreesOff stale' v w :=
  ⟨h.rest, h.size, fun slot hslot => h.value slot fun hold => hslot (hstale slot hold)⟩

theorem bindings (h : AgreesOff stale v w) : w.bindings = v.bindings := by
  rw [h.rest]

theorem keeps (h : AgreesOff stale v w) (hkept : u.Keeps v) : u.Keeps w := by
  intro i b hb
  rw [h.bindings]
  exact hkept i b hb

theorem read (h : AgreesOff stale v w) (hi : ∀ slot, v.scalarAt? i = some slot → ¬ stale slot)
    (ctx : Context ο) : w.read i ctx = v.read i ctx := by
  rw [h.rest]
  exact read_scalars (fun b slot hb hslot =>
    h.value slot (hi slot (scalarAt?_of_binding hb hslot))) ctx

theorem readIndexed (h : AgreesOff stale v w) (i : Nat) (y : Float) (ctx : Context ο) :
    w.readIndexed i y ctx = v.readIndexed i y ctx := by
  rw [h.rest]
  exact readIndexed_scalars v w.scalars i y ctx

theorem setAt (h : AgreesOff stale v w) (hlt : slot < v.scalars.size) (x : Float) :
    AgreesOff (fun s => stale s ∧ s ≠ slot) { v with scalars := v.scalars.setAt slot x }
      { w with scalars := w.scalars.setAt slot x } := by
  have hsize : ∀ t : Scalars, (t.setAt slot x).size = t.size := fun t => Array.size_modify ..
  refine ⟨?_, ?_, fun s hs => ?_⟩
  · rw [h.rest]
  · exact (hsize w.scalars).trans (h.size.trans (hsize v.scalars).symm)
  · by_cases heq : slot = s
    · subst heq
      show (w.scalars.setAt slot x).value? slot = (v.scalars.setAt slot x).value? slot
      rw [Scalars.value?_setAt_self (h.size ▸ hlt), Scalars.value?_setAt_self hlt]
    · show (w.scalars.setAt slot x).value? s = (v.scalars.setAt slot x).value? s
      rw [Scalars.value?_setAt_of_ne heq, Scalars.value?_setAt_of_ne heq]
      exact h.value s fun hstale => hs ⟨hstale, fun h => heq h.symm⟩

end AgreesOff

theorem write_scalarAt {x : Float} {ctx : Context ο} (hi : v.scalarAt? i = some slot) :
    v.write i x ctx = if slot < v.scalars.size then
      .ok { v with scalars := v.scalars.setAt slot x } else .error (.unbound slot) := by
  obtain ⟨⟨name, source⟩, hb, rfl⟩ := scalarAt?_eq_some hi
  simp only [write, hb, Scalars.write]
  split
  · rfl
  · rfl

theorem write_agreesOff {x : Float} {ctx : Context ο} (hi : v.scalarAt? i = some slot)
    (h : v.write i x ctx = .ok w) : AgreesOff (· = slot) v w := by
  rw [write_scalarAt hi] at h
  split at h
  · cases h
    refine ⟨rfl, Array.size_modify .., fun s hs => ?_⟩
    exact Scalars.value?_setAt_of_ne fun heq => hs heq.symm
  · cases h

end Variables

end ChoiceModel.Store
