import ChoiceModel.Proofs.Store.Additions

/-! What the entries of a store of matrices hold: the matrices of an addition and no other, and the members
of a collection in the order of their numbers. -/

namespace ChoiceModel.Store

namespace Matrix

variable {m : Matrix} {row : Nat}

def Square (m : Matrix) : Prop := ∀ (i : Nat) values, m.rows[i]? = some values → values.size = m.zones

theorem size_of_raggedRow? {zones : Nat} {rows : List (Array Float)} (h : raggedRow? zones row rows = none) :
    ∀ values ∈ rows, values.size = zones := by
  induction rows generalizing row with
  | nil => simp
  | cons values rows ih =>
    rw [raggedRow?] at h
    split at h
    · cases h
    · rename_i hsize
      intro values' hmem
      rcases List.mem_cons.mp hmem with rfl | hmem
      · simpa using hsize
      · exact ih h values' hmem

/-- A square matrix has a cell for any two of its zones, and no other. -/
theorem Square.isSome_cell? (h : m.Square) (row column : Nat) : (m.cell? row column).isSome = true ↔
    (1 ≤ row ∧ row ≤ m.zones) ∧ 1 ≤ column ∧ column ≤ m.zones := by
  rw [cell?]
  split
  · rename_i hzero
    simp only [Bool.or_eq_true, beq_iff_eq] at hzero
    simp only [Option.isSome_none, Bool.false_eq_true, false_iff]
    omega
  · rename_i hpositive
    simp only [Bool.or_eq_true, beq_iff_eq, not_or] at hpositive
    rw [Option.isSome_bind]
    by_cases hrow : row - 1 < m.rows.size
    · have hvalues := Array.getElem?_eq_getElem hrow
      have hsize : m.rows[row - 1].size = m.rows.size := h _ _ hvalues
      rw [hvalues, Option.any_some, Option.isSome_iff_ne_none, Ne, Array.getElem?_eq_none_iff, hsize,
        zones]
      omega
    · rw [Array.getElem?_eq_none (by omega), Option.any_none, zones]
      simp only [Bool.false_eq_true, false_iff]
      omega

end Matrix

/-- The matrices that an entry holds. -/
def Content.matrices : Content → List Matrix
  | .matrix m | .member _ _ m => [m]
  | .array members | .collection members => members.toList

theorem getElem?_memberEntries (orientation : Orientation) (collection number : Nat)
    (members : List Matrix) (j : Nat) :
    (memberEntries orientation collection number members)[j]? =
      members[j]?.map fun m => ⟨m.name, .member collection (number + j) m, orientation⟩ := by
  induction members generalizing number j with
  | nil => rfl
  | cons m members ih =>
    cases j with
    | zero => rfl
    | succ j =>
      rw [memberEntries, List.getElem?_cons_succ, ih, List.getElem?_cons_succ, Nat.add_right_comm]
      rfl

theorem lt_of_subscriptPosition {subscript : Float} {count k : Nat}
    (h : subscriptPosition subscript count = some k) : k < count := by
  unfold subscriptPosition at h
  split at h
  · split at h
    · rename_i hlt
      cases h
      exact hlt
    · cases h
  · cases h

theorem subscriptPosition_of_lt {subscript : Float} {count k : Nat}
    (h : Decimal.whole? subscript = some (k + 1)) (hlt : k < count) :
    subscriptPosition subscript count = some k := by
  rw [subscriptPosition, h]
  exact if_pos hlt

namespace Matrices

variable {t : Matrices} {e : Entry} {name : String} {i k : Nat} {m : Matrix} {ms : Array Matrix}

theorem indexOf?_eq_some_iff (h : (t.entries.toList.map Entry.name).Nodup) :
    t.indexOf? name = some i ↔ ∃ e, t.entries[i]? = some e ∧ e.name = name :=
  findIdx?_eq_some_iff_of_nodup h

def AllMatrices (P : Matrix → Prop) (t : Matrices) : Prop :=
  ∀ e ∈ t.entries, ∀ m ∈ e.content.matrices, P m

/-- The entries of an addition hold no matrix but those of the addition. -/
theorem mem_matrices_of_mem_entries {a : Addition} (h : e ∈ a.first :: a.others i)
    (hm : m ∈ e.content.matrices) : m ∈ a.matrices := by
  rcases List.mem_cons.mp h with rfl | h
  · cases a <;> exact hm
  · cases a with
    | matrix m' orientation => cases h
    | array name members orientation => cases h
    | collection name members orientation =>
      obtain ⟨j, hj⟩ := List.mem_iff_getElem?.mp h
      rw [Addition.others, getElem?_memberEntries] at hj
      obtain ⟨m', hm', rfl⟩ := Option.map_eq_some_iff.mp hj
      obtain rfl := List.mem_singleton.mp hm
      exact List.mem_of_getElem? hm'

theorem read_of_entry {trip : Nat × Nat} (he : t.entries[i]? = some e)
    (hm : e.content.single? = some m) : t.read i trip =
      m.cell (e.orientation.cell trip.1 trip.2).1 (e.orientation.cell trip.1 trip.2).2 := by
  rw [read, he]
  simp only [hm]

theorem readIndexed_of_entry {subscript : Float} {trip : Nat × Nat} (he : t.entries[i]? = some e)
    (hms : e.content.members? = some ms) (hsubscript : Decimal.whole? subscript = some (k + 1))
    (hm : ms[k]? = some m) : t.readIndexed i subscript trip =
      m.cell (e.orientation.cell trip.1 trip.2).1 (e.orientation.cell trip.1 trip.2).2 := by
  obtain ⟨hlt, -⟩ := Array.getElem?_eq_some_iff.mp hm
  rw [readIndexed, he]
  simp only [hms, subscriptPosition_of_lt hsubscript hlt, Option.bind_some, hm]

end Matrices

end ChoiceModel.Store
