import Mathlib.Data.List.Nodup

/-! Names and their places in the arrays of a store, where the first entry of a name counts. A place is
kept as long as entries are only added or get other values. -/

namespace ChoiceModel.Store

variable {α : Type} {xs ys zs : Array (String × α)} {name : String} {i : Nat}

theorem getElem?_of_findIdx? (h : xs.findIdx? (fun x => x.1 == name) = some i) :
    ∃ a, xs[i]? = some (name, a) := by
  obtain ⟨hlt, hname, -⟩ := Array.findIdx?_eq_some_iff_getElem.mp h
  have hname : xs[i].1 = name := beq_iff_eq.mp hname
  refine ⟨xs[i].2, ?_⟩
  rw [Array.getElem?_eq_getElem hlt, ← hname]

theorem findIdx?_injective {other : String} (h : xs.findIdx? (fun x => x.1 == name) = some i)
    (h' : xs.findIdx? (fun x => x.1 == other) = some i) : name = other := by
  obtain ⟨a, ha⟩ := getElem?_of_findIdx? h
  obtain ⟨b, hb⟩ := getElem?_of_findIdx? h'
  rw [ha] at hb
  cases hb
  rfl

/-- Names that differ are found where they stand. -/
theorem findIdx?_eq_some_iff_of_nodup {β : Type} {key : β → String} {xs : Array β}
    (h : (xs.toList.map key).Nodup) :
    xs.findIdx? (fun x => key x == name) = some i ↔ ∃ x, xs[i]? = some x ∧ key x = name := by
  refine ⟨fun hi => ?_, ?_⟩
  · obtain ⟨hlt, hname, -⟩ := Array.findIdx?_eq_some_iff_getElem.mp hi
    exact ⟨_, Array.getElem?_eq_getElem hlt, beq_iff_eq.mp hname⟩
  · rintro ⟨x, hx, rfl⟩
    obtain ⟨hlt, rfl⟩ := Array.getElem?_eq_some_iff.mp hx
    refine Array.findIdx?_eq_some_iff_getElem.mpr ⟨hlt, beq_self_eq_true _, fun j hj hsame => ?_⟩
    have hltj : j < xs.size := Nat.lt_trans hj hlt
    have hlength : i < (xs.toList.map key).length := by simpa using hlt
    refine List.nodup_iff_getElem?_ne_getElem?.mp h j i hj hlength ?_
    simpa [hlt, hltj] using hsame

/-- A name that comes behind differing ones is not found among them. -/
theorem findIdx?_eq_none_of_nodup {a : α} {rest : List (String × α)}
    (h : ((xs.toList ++ (name, a) :: rest).map Prod.fst).Nodup) :
    xs.findIdx? (fun x => x.1 == name) = none := by
  rw [List.map_append, List.nodup_append] at h
  refine Array.findIdx?_eq_none_iff.mpr fun other hother => beq_eq_false_iff_ne.mpr ?_
  exact h.2.2 _ (List.mem_map_of_mem (Array.mem_toList_iff.mpr hother)) _ List.mem_cons_self

/-- The search for a name looks at names alone. -/
theorem findIdx?_of_map_fst (h : ys.map Prod.fst = xs.map Prod.fst) (name : String) :
    ys.findIdx? (fun y => y.1 == name) = xs.findIdx? (fun x => x.1 == name) := by
  have hindex : ∀ zs : Array (String × α),
      zs.findIdx? (fun z => z.1 == name) = (zs.map Prod.fst).findIdx? (· == name) := by
    intro zs
    rw [Array.findIdx?_map]
    rfl
  rw [hindex, hindex, h]

theorem map_fst_modify (xs : Array (String × α)) (i : Nat) (a : α) :
    (xs.modify i fun x => (x.1, a)).map Prod.fst = xs.map Prod.fst := by
  refine Array.ext_getElem? fun j => ?_
  rw [Array.getElem?_map, Array.getElem?_map, Array.getElem?_modify]
  split
  · rw [Option.map_map]
    rfl
  · rfl

theorem setIfInBounds_eq_modify {a : α} (h : xs[i]? = some (name, a)) (b : α) :
    xs.setIfInBounds i (name, b) = xs.modify i fun x => (x.1, b) := by
  refine Array.ext_getElem? fun j => ?_
  rw [Array.getElem?_modify, Array.getElem?_setIfInBounds]
  split
  · rename_i heq
    subst heq
    rw [if_pos (Array.getElem?_eq_some_iff.mp h).1, h]
    rfl
  · rfl

theorem map_fst_setIfInBounds {a : α} (h : xs[i]? = some (name, a)) (b : α) :
    (xs.setIfInBounds i (name, b)).map Prod.fst = xs.map Prod.fst := by
  rw [setIfInBounds_eq_modify h, map_fst_modify]

section Zip

/-! Names and values in arrays of their own, which go together by their places. -/

variable {names : Array String} {values : Array α}

theorem zip_push (h : names.size = values.size) (name : String) (a : α) :
    (names.push name).zip (values.push a) = (names.zip values).push (name, a) := by
  rw [← Array.toList_inj, Array.toList_push, Array.toList_zip, Array.toList_zip, Array.toList_push,
    Array.toList_push, List.zip_append h]
  rfl

theorem zip_setIfInBounds (names : Array String) (values : Array α) (i : Nat) (a : α) :
    names.zip (values.setIfInBounds i a) = (names.zip values).modify i fun x => (x.1, a) := by
  refine Array.ext (by simp) fun j hj _ => ?_
  have hlt : j < values.size := by
    simp only [Array.size_zip, Array.size_setIfInBounds] at hj
    omega
  simp only [Array.getElem_modify, Array.getElem_zip, Array.getElem_setIfInBounds hlt]
  split
  · rfl
  · rfl

theorem findIdx?_zip (h : names.size = values.size) (name : String) :
    (names.zip values).findIdx? (fun x => x.1 == name) = names.findIdx? (· == name) := by
  have hfst : (names.zip values).map Prod.fst = names := Array.map_fst_zip (Nat.le_of_eq h)
  conv_rhs => rw [← hfst, Array.findIdx?_map]
  rfl

end Zip

/-- Every name in `xs` has the same place in `ys`. -/
def KeepsNames (xs ys : Array (String × α)) : Prop :=
  ∀ name i, xs.findIdx? (fun x => x.1 == name) = some i →
    ys.findIdx? (fun y => y.1 == name) = some i

namespace KeepsNames

theorem refl (xs : Array (String × α)) : KeepsNames xs xs := fun _ _ h => h

theorem trans (h : KeepsNames xs ys) (h' : KeepsNames ys zs) : KeepsNames xs zs :=
  fun name i hi => h' name i (h name i hi)

theorem push (xs : Array (String × α)) (x : String × α) : KeepsNames xs (xs.push x) := by
  intro name i hi
  rw [Array.findIdx?_push, hi, Option.some_or]

theorem of_map_fst (h : ys.map Prod.fst = xs.map Prod.fst) : KeepsNames xs ys := by
  intro name i hi
  rw [findIdx?_of_map_fst h]
  exact hi

theorem modify (xs : Array (String × α)) (i : Nat) (a : α) :
    KeepsNames xs (xs.modify i fun x => (x.1, a)) :=
  .of_map_fst (map_fst_modify xs i a)

end KeepsNames

end ChoiceModel.Store
