import ChoiceModel.Expression.Program
import ChoiceModel.Proofs.Store.Grounded

/-! What can go wrong with a binding that has its place: a read or a write fails for the context, the
subscript or the sizes of the stores alone, never for want of a binding. -/

namespace ChoiceModel.Expression

/-- The errors that the values, the context and the sizes of the stores account for; the other ones
are about programs and bindings. -/
def EvalError.isOfData : EvalError → Bool
  | underflow .. | overflow _ | subscript .. | notSubscriptable _ | cell .. | missing .. => true
  | notCompiled _ | invalid .. | unbound _ | readOnly _ => false

/-- Fails, if at all, with an error that the data account for. -/
def FailsOnData {α : Type} (r : Except EvalError α) : Prop := ∀ e, r = .error e → e.isOfData = true

namespace FailsOnData

variable {α β : Type}

theorem ok (a : α) : FailsOnData (.ok a) := fun _ h => nomatch h

theorem error {e : EvalError} (h : e.isOfData = true) : FailsOnData (.error e : Except EvalError α) := by
  intro e' heq
  cases heq
  exact h

theorem bind {r : Except EvalError α} {f : α → Except EvalError β} (h : FailsOnData r)
    (hf : ∀ a, FailsOnData (f a)) : FailsOnData (r >>= f) := by
  cases r with
  | error e => exact error (h e rfl)
  | ok a => exact hf a

end FailsOnData

end ChoiceModel.Expression

namespace ChoiceModel.Store

open Expression (EvalError FailsOnData Instruction)

theorem Scalars.read_failsOnData {t : Scalars} {name : String} {i : Nat}
    (h : t.indexOf? name = some i) : FailsOnData (t.read i) := by
  obtain ⟨x, hx⟩ := indexOf?_eq_some h
  have hvalue : t.value? i = some x := by rw [value?, hx, Option.map_some]
  rw [read, hvalue]
  exact .ok x

theorem Scalars.write_failsOnData {t : Scalars} {name : String} {i : Nat}
    (h : t.indexOf? name = some i) (x : Float) : FailsOnData (t.write i x) := by
  obtain ⟨y, hy⟩ := indexOf?_eq_some h
  obtain ⟨hlt, -⟩ := Array.getElem?_eq_some_iff.mp hy
  rw [write, if_pos (show i < t.size from hlt)]
  exact .ok _

theorem DataTable.read_failsOnData {t : DataTable} {name : String} {i : Nat}
    (h : t.indexOf? name = some i) (row : Nat) : FailsOnData (t.read i row) := by
  obtain ⟨values, hcolumn⟩ := getElem?_of_findIdx? h
  rw [read, hcolumn]
  simp only
  split
  · exact .ok _
  · exact .error rfl

theorem DataTable.write_failsOnData {t : DataTable} {name : String} {i : Nat}
    (h : t.indexOf? name = some i) (row : Nat) (x : Float) : FailsOnData (t.write i row x) := by
  obtain ⟨values, hcolumn⟩ := getElem?_of_findIdx? h
  rw [write, hcolumn]
  simp only
  split
  · exact .ok _
  · exact .error rfl

theorem Matrix.cell_failsOnData (m : Matrix) (row column : Nat) : FailsOnData (m.cell row column) := by
  unfold cell
  split
  · exact .ok _
  · exact .error rfl

theorem Matrices.read_failsOnData {t : Matrices} {i : Nat} {entry : Entry}
    (h : t.entries[i]? = some entry) (hsingle : entry.content.single?.isSome = true)
    (trip : Nat × Nat) : FailsOnData (t.read i trip) := by
  obtain ⟨m, hm⟩ := Option.isSome_iff_exists.mp hsingle
  rw [read, h]
  simp only [hm]
  exact m.cell_failsOnData _ _

theorem Matrices.readIndexed_failsOnData {t : Matrices} {i : Nat} {entry : Entry}
    (h : t.entries[i]? = some entry) (subscript : Float) (trip : Nat × Nat) :
    FailsOnData (t.readIndexed i subscript trip) := by
  rw [readIndexed, h]
  simp only
  split
  · exact .error rfl
  · split
    · exact .error rfl
    · rename_i m _
      exact m.cell_failsOnData _ _

namespace Variables

variable {ο : Type} {v w : Variables ο} {name : String} {i : Nat}

theorem zoneRow_failsOnData (name : String) (place : Place) (ctx : Context ο) :
    FailsOnData (zoneRow name place ctx) := by
  unfold zoneRow
  simp only
  split
  · exact .error rfl
  · exact .error rfl
  · exact .ok _

theorem householdRow_failsOnData (name : String) (ctx : Context ο) :
    FailsOnData (householdRow name ctx) := by
  unfold householdRow
  split
  · exact .ok _
  · exact .error rfl

theorem alternativeRow_failsOnData (name : String) (ctx : Context ο) :
    FailsOnData (alternativeRow name ctx) := by
  unfold alternativeRow
  split
  · exact .error rfl
  · exact .ok _

theorem trip_failsOnData (name : String) (ctx : Context ο) : FailsOnData (trip name ctx) := by
  unfold trip
  split
  · exact .ok _
  · exact .error rfl

theorem read_failsOnData {b : Binding} (hv : v.Grounded) (hb : v.bindings[i]? = some b)
    (hgroup : b.source.isGroup = false) (ctx : Context ο) : FailsOnData (v.read i ctx) := by
  have hsupports := hv i b hb
  obtain ⟨name, source⟩ := b
  unfold read
  rw [hb]
  cases source with
  | scalar slot => exact Scalars.read_failsOnData hsupports
  | zone column place =>
    exact (zoneRow_failsOnData name place ctx).bind fun row =>
      DataTable.read_failsOnData hsupports row
  | household column =>
    exact (householdRow_failsOnData name ctx).bind fun row =>
      DataTable.read_failsOnData hsupports row
  | alternative column =>
    exact (alternativeRow_failsOnData name ctx).bind fun row =>
      DataTable.read_failsOnData hsupports row
  | matrix entry orientation =>
    obtain ⟨e, he, hsingle⟩ := hsupports
    exact (trip_failsOnData name ctx).bind fun trip => Matrices.read_failsOnData he hsingle trip
  | member entry orientation number =>
    obtain ⟨e, he, hsingle⟩ := hsupports
    exact (trip_failsOnData name ctx).bind fun trip => Matrices.read_failsOnData he hsingle trip
  | array entry orientation => cases hgroup
  | collection entry orientation => cases hgroup
  | «attribute» slot fixed =>
    obtain ⟨key, hkey⟩ := hsupports
    obtain ⟨f, hf⟩ := getElem?_of_findIdx? hkey
    simp only
    split
    · exact .error rfl
    · rename_i person _
      rw [Attributes.call?, hf]
      exact .ok _
  | loop l =>
    simp only
    split
    · exact .ok _
    · exact .error rfl

theorem readIndexed_failsOnData {b : Binding} (hv : v.Grounded) (hb : v.bindings[i]? = some b)
    (subscript : Float) (ctx : Context ο) : FailsOnData (v.readIndexed i subscript ctx) := by
  have hsupports := hv i b hb
  obtain ⟨name, source⟩ := b
  have hentry : ∀ entry e, v.matrices.entries[entry]? = some e →
      FailsOnData (trip name ctx >>= v.matrices.readIndexed entry subscript) := fun entry e he =>
    (trip_failsOnData name ctx).bind (Matrices.readIndexed_failsOnData he subscript)
  unfold readIndexed
  rw [hb]
  cases source with
  | matrix entry orientation =>
    obtain ⟨e, he, -⟩ := hsupports
    exact hentry entry e he
  | member entry orientation number =>
    obtain ⟨e, he, -⟩ := hsupports
    exact hentry entry e he
  | array entry orientation =>
    obtain ⟨e, he, -⟩ := hsupports
    exact hentry entry e he
  | collection entry orientation =>
    obtain ⟨e, he, -⟩ := hsupports
    exact hentry entry e he
  | scalar slot => exact .error rfl
  | zone column place => exact .error rfl
  | household column => exact .error rfl
  | alternative column => exact .error rfl
  | «attribute» slot fixed => exact .error rfl
  | loop l => exact .error rfl

theorem write_failsOnData {b : Binding} (hv : v.Grounded) (hb : v.bindings[i]? = some b)
    (hwritable : b.source.isWritable = true) (x : Float) (ctx : Context ο) :
    FailsOnData (v.write i x ctx) := by
  have hsupports := hv i b hb
  obtain ⟨name, source⟩ := b
  unfold write
  rw [hb]
  cases source with
  | scalar slot => exact (Scalars.write_failsOnData hsupports x).bind fun _ => .ok _
  | zone column place =>
    exact (zoneRow_failsOnData name place ctx).bind fun row =>
      (DataTable.write_failsOnData hsupports row x).bind fun _ => .ok _
  | household column =>
    exact (householdRow_failsOnData name ctx).bind fun row =>
      (DataTable.write_failsOnData hsupports row x).bind fun _ => .ok _
  | alternative column =>
    exact (alternativeRow_failsOnData name ctx).bind fun row =>
      (DataTable.write_failsOnData hsupports row x).bind fun _ => .ok _
  | matrix entry orientation => cases hwritable
  | member entry orientation number => cases hwritable
  | array entry orientation => cases hwritable
  | collection entry orientation => cases hwritable
  | «attribute» slot fixed => cases hwritable
  | loop l => cases hwritable

/-- The operand of an instruction is bound, and to no group of matrices where it is loaded. -/
def Serves (v : Variables ο) : Instruction → Prop
  | .load i => ∃ b, v.bindings[i]? = some b ∧ b.source.isGroup = false
  | .matrix i => ∃ b, v.bindings[i]? = some b
  | .literal _ | .apply _ => True

theorem Serves.mono {instruction : Instruction} (h : v.Serves instruction) (hvw : v.Grows w) :
    w.Serves instruction := by
  cases instruction with
  | literal x => trivial
  | load i =>
    obtain ⟨b, hb, hgroup⟩ := h
    exact ⟨b, hvw.bindings i b hb, hgroup⟩
  | matrix i =>
    obtain ⟨b, hb⟩ := h
    exact ⟨b, hvw.bindings i b hb⟩
  | apply op => trivial

theorem resolveRead_serves (h : resolveRead name v = (some i, w)) : w.Serves (.load i) := by
  unfold resolveRead at h
  split at h
  · rename_i hbinding
    cases h
    obtain ⟨hlt, hb, -⟩ := Array.findIdx?_eq_some_iff_getElem.mp hbinding
    exact ⟨_, Array.getElem?_eq_getElem hlt, beq_iff_eq.mp (Bool.and_eq_true_iff.mp hb).2⟩
  · split at h
    · rename_i source hsource
      cases h
      exact ⟨_, Array.getElem?_push_size, (supports_source? hsource).2⟩
    · cases h

theorem resolveArray_serves (h : resolveArray name v = (some i, w)) : w.Serves (.matrix i) := by
  obtain ⟨b, hb, -⟩ := (resolveArray_eq_some h).named
  exact ⟨b, hb⟩

theorem resolveAssign_isWritable (h : resolveAssign name v = (some i, w)) :
    ∃ b, w.bindings[i]? = some b ∧ b.source.isWritable = true := by
  unfold resolveAssign at h
  split at h
  · rename_i j u hread
    split at h
    · rename_i hwritable
      cases h
      exact (Option.any_eq_true _ _).mp hwritable
    · cases h
  · split at h
    · cases h
      exact ⟨_, Array.getElem?_push_size, rfl⟩
    · cases h

end Variables

end ChoiceModel.Store
