import ChoiceModel.Proofs.Store.Members

/-! Additions none of which may fail. All of them succeed exactly if the names that they register differ
from each other and from those of the store, and then each of them has its entries side by side. -/

namespace ChoiceModel.Store

open Model (Defect kept)

/-- The names that an addition registers. -/
def Addition.registered : Addition → List String
  | matrix m _ => [m.name]
  | array name _ _ => [name]
  | collection name members _ => name :: members.toList.map Matrix.name

theorem map_name_memberEntries (orientation : Orientation) (collection number : Nat)
    (members : List Matrix) :
    (memberEntries orientation collection number members).map Entry.name =
      members.map Matrix.name := by
  induction members generalizing number with
  | nil => rfl
  | cons m members ih => rw [memberEntries, List.map_cons, ih, List.map_cons]

theorem Addition.map_name (a : Addition) (place : Nat) :
    (a.first :: a.others place).map Entry.name = a.registered := by
  cases a with
  | matrix m orientation => rfl
  | array name members orientation => rfl
  | collection name members orientation =>
    exact congrArg (name :: ·) (map_name_memberEntries ..)

/-- The entries of additions, the first of which has its own at `place`. -/
def entriesFrom (place : Nat) : List Addition → List Entry
  | [] => []
  | a :: as => a.first :: a.others place ++ entriesFrom (place + a.registered.length) as

theorem map_name_entriesFrom (place : Nat) (as : List Addition) :
    (entriesFrom place as).map Entry.name = as.flatMap Addition.registered := by
  induction as generalizing place with
  | nil => rfl
  | cons a as ih => rw [entriesFrom, List.map_append, a.map_name, ih, List.flatMap_cons]

theorem exists_entriesFrom {a : Addition} {as : List Addition} (ha : a ∈ as) (place : Nat) :
    ∃ before after, entriesFrom place as =
      before ++ (a.first :: a.others (place + before.length) ++ after) := by
  induction as generalizing place with
  | nil => cases ha
  | cons a' as ih =>
    rw [entriesFrom]
    rcases List.mem_cons.mp ha with rfl | ha
    · exact ⟨[], _, rfl⟩
    · obtain ⟨before, after, h⟩ := ih ha (place + a'.registered.length)
      refine ⟨a'.first :: a'.others place ++ before, after, ?_⟩
      have hlength : (a'.first :: a'.others place).length = a'.registered.length := by
        rw [← a'.map_name place, List.length_map]
      rw [List.length_append, hlength, ← Nat.add_assoc, h, List.append_assoc]

namespace Matrices

variable {t u : Matrices} {a : Addition} {as : List Addition} {e : Entry} {es rest : List Entry}
  {name : String}

def names (t : Matrices) : List String := t.entries.toList.map Entry.name

/-- Additions one after the other, up to the first that fails. -/
def addAll (t : Matrices) (additions : List Addition) : Except Defect Matrices :=
  additions.foldlM (fun t a => kept (t.perform a)) t

theorem indexOf?_eq_none_iff : t.indexOf? name = none ↔ name ∉ t.names := by
  rw [indexOf?, Array.findIdx?_eq_none_iff, names, List.mem_map]
  simp

theorem names_append (t : Matrices) (es : List Entry) :
    names ⟨t.entries ++ es.toArray⟩ = t.names ++ es.map Entry.name := by
  simp [names]

/-- Nothing is left of the entries if their names are new and differ. -/
theorem Registers.eq_nil_iff (h : Registers es t rest u) (ht : t.names.Nodup) :
    rest = [] ↔ (t.names ++ es.map Entry.name).Nodup := by
  induction h with
  | done t => simpa using ht
  | @taken t e es i h =>
    refine iff_of_false (List.cons_ne_nil e es) fun hnames => ?_
    have hmem : e.name ∈ t.names := by
      by_contra hmem
      rw [indexOf?_eq_none_iff.mpr hmem] at h
      cases h
    exact (List.nodup_append.mp hnames).2.2 _ hmem _ List.mem_cons_self rfl
  | @added t u e es rest h hrest ih =>
    have hnew := indexOf?_eq_none_iff.mp h
    have hpush : names ⟨t.entries.push e⟩ = t.names ++ [e.name] := by simp [names]
    rw [hpush] at ih
    rw [ih (List.nodup_append.mpr ⟨ht, List.nodup_singleton _, ?_⟩), List.append_assoc]
    · rfl
    · rintro name hname _ hother rfl
      exact hnew (List.mem_singleton.mp hother ▸ hname)

theorem kept_perform_eq_ok_iff (ht : t.names.Nodup) : kept (t.perform a) = .ok u ↔
    (t.names ++ a.registered).Nodup ∧
      u = ⟨t.entries ++ (a.first :: a.others t.entries.size).toArray⟩ := by
  obtain ⟨rest, hregisters, houtcome⟩ := t.perform_registers a
  have hnil := hregisters.eq_nil_iff ht
  rw [a.map_name] at hnil
  rw [← hnil, kept, houtcome]
  cases rest with
  | nil =>
    obtain ⟨added, hadded, hentries, -⟩ := hregisters.exists_added
    rw [List.append_nil] at hadded
    rw [hadded, ← hentries]
    exact ⟨fun h => ⟨rfl, (Except.ok.inj h).symm⟩, fun h => congrArg Except.ok h.2.symm⟩
  | cons e rest => exact iff_of_false (fun h => nomatch h) fun h => nomatch h.1

theorem addAll_eq_ok_iff (ht : t.names.Nodup) : t.addAll as = .ok u ↔
    (t.names ++ as.flatMap Addition.registered).Nodup ∧
      u = ⟨t.entries ++ (entriesFrom t.entries.size as).toArray⟩ := by
  induction as generalizing t with
  | nil =>
    simp only [addAll, List.foldlM_nil, List.flatMap_nil, List.append_nil, entriesFrom,
      Array.append_empty]
    exact ⟨fun h => ⟨ht, (Except.ok.inj h).symm⟩, fun h => congrArg Except.ok h.2.symm⟩
  | cons a as ih =>
    have hsize : (t.entries ++ (a.first :: a.others t.entries.size).toArray).size =
        t.entries.size + a.registered.length := by
      rw [Array.size_append, ← a.map_name t.entries.size, List.length_map]
      rfl
    have hcons : t.addAll (a :: as) = .ok u ↔
        ∃ w, kept (t.perform a) = .ok w ∧ w.addAll as = .ok u := bind_eq_ok_iff
    rw [hcons, List.flatMap_cons, ← List.append_assoc, entriesFrom]
    constructor
    · rintro ⟨w, hfirst, hrest⟩
      obtain ⟨hnames, rfl⟩ := (kept_perform_eq_ok_iff ht).mp hfirst
      have hw := names_append t (a.first :: a.others t.entries.size)
      rw [a.map_name] at hw
      obtain ⟨hall, rfl⟩ := (ih (hw ▸ hnames)).mp hrest
      rw [hw] at hall
      refine ⟨hall, ?_⟩
      simp [hsize]
    · rintro ⟨hall, rfl⟩
      have hnames := (List.nodup_append.mp hall).1
      have hw := names_append t (a.first :: a.others t.entries.size)
      rw [a.map_name] at hw
      refine ⟨_, (kept_perform_eq_ok_iff ht).mpr ⟨hnames, rfl⟩, ?_⟩
      refine (ih (hw ▸ hnames)).mpr ⟨hw ▸ hall, ?_⟩
      simp [hsize]

theorem addAll_empty_eq_ok_iff : addAll {} as = .ok u ↔
    (as.flatMap Addition.registered).Nodup ∧ u = ⟨(entriesFrom 0 as).toArray⟩ := by
  rw [addAll_eq_ok_iff (show names {} |>.Nodup from .nil)]
  exact and_congr_right fun _ => by rw [Array.empty_append]; rfl

/-- Where the entries of an addition stand. -/
theorem exists_place_of_addAll (h : addAll {} as = .ok u) (ha : a ∈ as) :
    ∃ place, u.entries[place]? = some a.first ∧
      ∀ k e, (a.others place)[k]? = some e → u.entries[place + 1 + k]? = some e := by
  obtain ⟨-, rfl⟩ := addAll_empty_eq_ok_iff.mp h
  obtain ⟨before, after, hentries⟩ := exists_entriesFrom ha 0
  rw [Nat.zero_add] at hentries
  have hget : ∀ k, (entriesFrom 0 as)[before.length + k]? =
      (a.first :: a.others before.length ++ after)[k]? := fun k => by
    rw [hentries, List.getElem?_append_right (Nat.le_add_right _ _), Nat.add_sub_cancel_left]
  refine ⟨before.length, (List.getElem?_toArray ..).trans (hget 0), fun k e he => ?_⟩
  obtain ⟨hlt, -⟩ := List.getElem?_eq_some_iff.mp he
  rw [List.getElem?_toArray, Nat.add_assoc, hget, Nat.add_comm 1, List.cons_append,
    List.getElem?_cons_succ, List.getElem?_append_left hlt]
  exact he

theorem names_of_addAll (h : addAll {} as = .ok u) : u.names.Nodup := by
  obtain ⟨hnames, rfl⟩ := addAll_empty_eq_ok_iff.mp h
  rw [names, List.toList_toArray, map_name_entriesFrom]
  exact hnames

end Matrices

end ChoiceModel.Store
