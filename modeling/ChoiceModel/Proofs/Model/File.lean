import ChoiceModel.Model.File
import ChoiceModel.Proofs.Store.Variables
import Mathlib.Data.String.Basic

/-! Lists with increasing keys, and the formulas of a model file, which are such a list: no name
occurs twice, and none has a character that ends a name. -/

namespace ChoiceModel.Model

open Store

section Keyed

variable {α : Type} {key other : String} {value : α}

theorem lookup_insertKey_self (key : String) (value : α) (pairs : List (String × α)) :
    (insertKey key value pairs).lookup key = some value := by
  induction pairs with
  | nil => simp [insertKey]
  | cons pair pairs ih =>
    obtain ⟨k, v⟩ := pair
    rw [insertKey]
    split
    · simp
    · split
      · simp
      · rename_i hne
        rw [List.lookup_cons]
        simp only [hne, ih]

theorem lookup_insertKey_of_ne (h : other ≠ key) (value : α) (pairs : List (String × α)) :
    (insertKey key value pairs).lookup other = pairs.lookup other := by
  have hother : (other == key) = false := beq_eq_false_iff_ne.mpr h
  induction pairs with
  | nil => simp [insertKey, List.lookup_cons, hother]
  | cons pair pairs ih =>
    obtain ⟨k, v⟩ := pair
    rw [insertKey]
    split
    · rw [List.lookup_cons, hother]
    · split
      · rename_i heq
        rw [List.lookup_cons, List.lookup_cons, ← beq_iff_eq.mp heq, hother]
      · rw [List.lookup_cons, List.lookup_cons, ih]

theorem mem_insertKey {pairs : List (String × α)} {pair : String × α}
    (h : pair ∈ insertKey key value pairs) : pair.1 = key ∨ pair ∈ pairs := by
  induction pairs with
  | nil =>
    cases List.mem_singleton.mp h
    exact .inl rfl
  | cons first pairs ih =>
    obtain ⟨k, v⟩ := first
    rw [insertKey] at h
    split at h
    · rcases List.mem_cons.mp h with rfl | h
      · exact .inl rfl
      · exact .inr h
    · split at h
      · rcases List.mem_cons.mp h with rfl | h
        · exact .inl rfl
        · exact .inr (List.mem_cons_of_mem _ h)
      · rcases List.mem_cons.mp h with rfl | h
        · exact .inr List.mem_cons_self
        · exact (ih h).imp id (List.mem_cons_of_mem _)

def Sorted (pairs : List (String × α)) : Prop := pairs.Pairwise fun p q => p.1 < q.1

theorem Sorted.insertKey {pairs : List (String × α)} (h : Sorted pairs) (key : String) (value : α) :
    Sorted (insertKey key value pairs) := by
  induction pairs with
  | nil => exact List.pairwise_singleton _ _
  | cons pair pairs ih =>
    obtain ⟨k, v⟩ := pair
    obtain ⟨hfirst, hrest⟩ := List.pairwise_cons.mp h
    rw [Model.insertKey]
    split
    · rename_i hlt
      refine List.pairwise_cons.mpr ⟨fun p hp => ?_, h⟩
      rcases List.mem_cons.mp hp with rfl | hp
      · exact hlt
      · exact hlt.trans (hfirst p hp)
    · rename_i hnot
      split
      · rename_i heq
        rw [beq_iff_eq.mp heq]
        exact List.pairwise_cons.mpr ⟨hfirst, hrest⟩
      · rename_i hne
        refine List.pairwise_cons.mpr ⟨fun p hp => ?_, ih hrest⟩
        rcases mem_insertKey hp with heq | hp
        · rw [heq]
          exact lt_of_le_of_ne (le_of_not_gt hnot) fun heq => hne (beq_iff_eq.mpr heq.symm)
        · exact hfirst p hp

theorem sorted_ofPairs (pairs : List (String × α)) : Sorted (ofPairs pairs) := by
  have hfold : ∀ (pairs sorted : List (String × α)), Sorted sorted →
      Sorted (pairs.foldl (fun sorted pair => insertKey pair.1 pair.2 sorted) sorted) := by
    intro pairs
    induction pairs with
    | nil => exact fun _ h => h
    | cons pair pairs ih => exact fun sorted h => ih _ (h.insertKey pair.1 pair.2)
  exact hfold pairs [] .nil

theorem lookup_of_nodup {pairs : List (String × α)} {key : String} {value : α}
    (h : (pairs.map Prod.fst).Nodup) (hmem : (key, value) ∈ pairs) :
    pairs.lookup key = some value := by
  obtain ⟨before, after, rfl⟩ := List.append_of_mem hmem
  refine List.lookup_eq_some_iff.mpr ⟨before, after, rfl, fun p hp => bne_iff_ne.mpr ?_⟩
  rw [List.map_append, List.nodup_append] at h
  exact Ne.symm (h.2.2 p.1 (List.mem_map_of_mem hp) key List.mem_cons_self)

theorem Sorted.nodup {pairs : List (String × α)} (h : Sorted pairs) :
    (pairs.map Prod.fst).Nodup := by
  rw [List.Nodup, List.pairwise_map]
  exact h.imp fun hlt => ne_of_lt hlt

theorem Sorted.lookup_eq {pairs : List (String × α)} {key : String} {value : α} (h : Sorted pairs)
    (hmem : (key, value) ∈ pairs) : pairs.lookup key = some value :=
  lookup_of_nodup h.nodup hmem

end Keyed

section Reading

open Yaml Document

variable {α β : Type}

/-- Whatever a reading gives has the property `P`. -/
def Gives (reading : Reading α) (P : α → Prop) : Prop :=
  ∀ left a left', reading left = some (a, left') → P a

theorem Gives.pure {P : α → Prop} {a : α} (h : P a) : Gives (Pure.pure a) P := by
  rintro left a' left' heq
  cases heq
  exact h

theorem Gives.bind {reading : Reading α} {f : α → Reading β} {P : α → Prop} {Q : β → Prop}
    (h : Gives reading P) (hf : ∀ a, P a → Gives (f a) Q) : Gives (reading >>= f) Q := by
  intro left b left' heq
  obtain ⟨⟨a, left₁⟩, hfirst, hrest⟩ := Option.bind_eq_some_iff.mp heq
  exact hf a (h left a left₁ hfirst) left₁ b left' hrest

theorem Gives.any (reading : Reading α) : Gives reading fun _ => True := fun _ _ _ _ => trivial

theorem gives_map (read : Value → Reading α) (v : Value) : Gives (map read v) Sorted :=
  .bind (.any _) fun _ _ => .bind (.any _) fun pairs _ => .pure (sorted_ofPairs pairs)

theorem gives_optional {P : α → Prop} {default : α} {read : Value → Reading α}
    (fields : List (String × Value)) (name : String) (hdefault : P default)
    (hread : ∀ v, Gives (read v) P) : Gives (Document.optional fields name default read) P := by
  rw [Document.optional]
  cases fields.lookup name with
  | none => exact .pure hdefault
  | some v => exact hread v

theorem gives_model (v : Value) : Gives (model v) fun m => Sorted m.formulas := by
  unfold model
  -- the record and the seven fields in front of the formulas
  iterate 8 refine .bind (.any _) fun _ _ => ?_
  refine .bind (gives_optional _ _ .nil (gives_map expression)) fun formulas hformulas => ?_
  exact .bind (.any _) fun utilities _ => .pure hformulas

theorem sorted_of_read? {text : String} {m : Model} (h : read? model text = some m) :
    Sorted m.formulas := by
  obtain ⟨root, -, hrun⟩ := Option.bind_eq_some_iff.mp h
  obtain ⟨⟨m', left⟩, hread, heq⟩ := Option.map_eq_some_iff.mp hrun
  cases heq
  exact gives_model _ _ _ _ hread

end Reading

theorem checkName_eq_ok_iff {kind : NameKind} {name : String} : checkName kind name = .ok () ↔
    name.toList.head?.any Char.isAlpha = true ∧
      (name.toList.any fun c => Expression.isDelimiter c || Expression.isBracket c) = false := by
  unfold checkName
  simp only
  split
  · rename_i hname
    rw [Bool.or_eq_true, Bool.not_eq_true'] at hname
    simp only [reduceCtorEq, false_iff, not_and, Bool.not_eq_false]
    exact fun hstart => hname.resolve_left (ne_false_of_eq_true hstart)
  · rename_i hname
    rw [Bool.or_eq_true, not_or, Bool.not_eq_true', Bool.not_eq_false, Bool.not_eq_true] at hname
    exact iff_of_true rfl hname

theorem checkName_eq_ok {kind : NameKind} {name : String} (h : checkName kind name = .ok ()) :
    ∀ c ∈ name.toList, Expression.isDelimiter c = false := by
  intro c hc
  have hpart := List.any_eq_false.mp (checkName_eq_ok_iff.mp h).2 c hc
  rw [Bool.not_eq_true, Bool.or_eq_false_iff] at hpart
  exact hpart.1

theorem forM_eq_ok {ε α : Type} {f : α → Except ε Unit} {as : List α} (h : as.forM f = .ok ()) :
    ∀ a ∈ as, f a = .ok () := by
  induction as with
  | nil => exact fun _ ha => nomatch ha
  | cons a as ih =>
    obtain ⟨_, hfirst, hrest⟩ := exists_of_bind_eq_ok h
    intro b hb
    rcases List.mem_cons.mp hb with rfl | hb
    · exact hfirst
    · exact ih hrest b hb

theorem check_formulas {m : Model} (h : m.check = .ok ()) :
    ∀ f ∈ m.formulas, checkName .formula f.1 = .ok () := by
  obtain ⟨_, -, h⟩ := exists_of_bind_eq_ok h
  obtain ⟨_, -, h⟩ := exists_of_bind_eq_ok h
  obtain ⟨_, -, h⟩ := exists_of_bind_eq_ok h
  obtain ⟨_, hformulas, -⟩ := exists_of_bind_eq_ok h
  exact forM_eq_ok hformulas

theorem parse_eq_ok_iff {text : String} {m : Model} :
    parse text = .ok m ↔ Yaml.read? Document.model text = some m ∧ m.check = .ok () := by
  unfold parse
  cases Yaml.read? Document.model text with
  | none => simp
  | some m' =>
    simp only [Option.some.injEq]
    refine ⟨fun h => ?_, ?_⟩
    · split at h
      · rename_i hcheck
        cases h
        exact ⟨rfl, hcheck⟩
      · cases h
    · rintro ⟨rfl, hcheck⟩
      rw [hcheck]

/-- A model with its formulas in the order of their names that passes the check. -/
structure Checked (m : Model) : Prop where
  sorted : Sorted m.formulas
  check : m.check = .ok ()

namespace Checked

theorem of_parse {text : String} {m : Model} (h : parse text = .ok m) : m.Checked := by
  obtain ⟨hread, hcheck⟩ := parse_eq_ok_iff.mp h
  exact ⟨sorted_of_read? hread, hcheck⟩

theorem names {m : Model} (h : m.Checked) :
    ∀ f ∈ m.formulas, ∀ c ∈ f.1.toList, Expression.isDelimiter c = false :=
  fun f hf => checkName_eq_ok (check_formulas h.check f hf)

end Checked

end ChoiceModel.Model
