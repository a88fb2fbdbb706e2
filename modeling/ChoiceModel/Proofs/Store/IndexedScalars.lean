import Mathlib.Tactic.Common
import ChoiceModel.Proofs.Store.Names
import ChoiceModel.Store.Scalars

/-! Scalars as names, values and an index of the names side by side. The three agree with each other after
any history, and with the history itself: names stand in the order of their first use, and a value is
the last one that its name has got. -/

namespace ChoiceModel.Store

open Expression (EvalError)

namespace Scalars

/-- What can happen to scalars once they exist. -/
inductive Change where
  | set (name : String) (x : Float)
  | assign (name : String)
  | write (i : Nat) (x : Float)

def Change.name? : Change → Option String
  | set name _ | assign name => some name
  | write .. => none

/-- The names of a history in the order of their first use. -/
def namesOf (history : List Change) : List String := (history.filterMap Change.name?).eraseDups

/-- The value that a name has got last, in a history told backwards. -/
def latest? (name : String) : List Change → Option Float
  | [] => none
  | .set n x :: earlier => if n = name then some x else latest? name earlier
  | .assign n :: earlier =>
    if n = name then (latest? name earlier).or (some 0.0) else latest? name earlier
  | .write i x :: earlier =>
    if (namesOf earlier.reverse)[i]? = some name then some x else latest? name earlier

/-- Answers with the place of the scalar, and leaves the scalars as they are if it fails. -/
def change (t : Scalars) : Change → Except EvalError Nat × Scalars
  | .set name x =>
    let (i, u) := t.set name x
    (.ok i, u)
  | .assign name =>
    let (i, u) := t.allocate name
    (.ok i, u)
  | .write i x =>
    match t.write i x with
    | .ok u => (.ok i, u)
    | .error e => (.error e, t)

def run (t : Scalars) (changes : List Change) : Scalars :=
  changes.foldl (fun t c => (t.change c).2) t

end Scalars

structure IndexedScalars where
  names : Array String := #[]
  values : Array Float := #[]
  index : Std.HashMap String Nat := ∅

namespace IndexedScalars

open Scalars (Change namesOf latest?)

def indexOf? (t : IndexedScalars) (name : String) : Option Nat := t.index[name]?

def get? (t : IndexedScalars) (name : String) : Option Float :=
  (t.indexOf? name).bind fun i => t.values[i]?

def allocate (t : IndexedScalars) (name : String) : Nat × IndexedScalars :=
  match t.indexOf? name with
  | some i => (i, t)
  | none =>
    let i := t.values.size
    (i, ⟨t.names.push name, t.values.push 0.0, t.index.insert name i⟩)

def setAt (t : IndexedScalars) (i : Nat) (x : Float) : IndexedScalars :=
  { t with values := t.values.setIfInBounds i x }

def set (t : IndexedScalars) (name : String) (x : Float) : Nat × IndexedScalars :=
  let (i, t) := t.allocate name
  (i, t.setAt i x)

def write (t : IndexedScalars) (i : Nat) (x : Float) : Except EvalError Nat × IndexedScalars :=
  match t.values[i]? with
  | none => (.error (.unbound i), t)
  | some _ => (.ok i, t.setAt i x)

def change (t : IndexedScalars) : Change → Except EvalError Nat × IndexedScalars
  | .set name x =>
    let (i, u) := t.set name x
    (.ok i, u)
  | .assign name =>
    let (i, u) := t.allocate name
    (.ok i, u)
  | .write i x => t.write i x

def run (t : IndexedScalars) (changes : List Change) : IndexedScalars :=
  changes.foldl (fun t c => (t.change c).2) t

def ofList (pairs : List (String × Float)) : IndexedScalars :=
  pairs.foldl (fun t pair => (t.set pair.1 pair.2).2) {}

def scalars (t : IndexedScalars) : Scalars := ⟨t.names.zip t.values⟩

/-- The index is the inverse of the names, and each name has a value. -/
structure Coherent (t : IndexedScalars) : Prop where
  size : t.values.size = t.names.size
  index : ∀ (name : String) (i : Nat), t.index[name]? = some i ↔ t.names[i]? = some name

variable {t : IndexedScalars} {name other : String} {i : Nat} {x : Float}

namespace Coherent

theorem empty : Coherent {} := ⟨rfl, fun name i => by simp⟩

theorem nodup (h : t.Coherent) : t.names.toList.Nodup := by
  refine List.nodup_iff_getElem?_ne_getElem?.mpr fun i j hij hj hsame => ?_
  rw [Array.getElem?_toList, Array.getElem?_toList] at hsame
  have hj : t.names[j]? = some t.names[j] := Array.getElem?_eq_getElem hj
  have hi := (h.index _ i).mpr (hsame.trans hj)
  rw [(h.index _ j).mpr hj] at hi
  exact Nat.ne_of_gt hij (Option.some.inj hi)

theorem lt_of_indexOf? (h : t.Coherent) (hi : t.indexOf? name = some i) : i < t.values.size := by
  rw [h.size]
  exact (Array.getElem?_eq_some_iff.mp ((h.index name i).mp hi)).1

theorem allocate (h : t.Coherent) (name : String) : (t.allocate name).2.Coherent := by
  unfold IndexedScalars.allocate
  split
  · exact h
  · rename_i hnone
    have hfresh : ∀ i : Nat, t.names[i]? ≠ some name := by
      intro i hi
      rw [← h.index] at hi
      exact Option.some_ne_none i (hi.symm.trans hnone)
    refine ⟨by simp [h.size], fun other i => ?_⟩
    rw [Std.HashMap.getElem?_insert, Array.getElem?_push, h.size]
    by_cases hname : name = other
    · subst hname
      rw [if_pos (beq_self_eq_true name), Option.some.injEq, eq_comm]
      split
      · rename_i heq
        exact iff_of_true heq rfl
      · rename_i hne
        exact iff_of_false hne (hfresh i)
    · rw [if_neg (by simpa using hname), h.index]
      split
      · rename_i heq
        simp [heq, hname]
      · rfl

theorem setAt (h : t.Coherent) (i : Nat) (x : Float) : (t.setAt i x).Coherent :=
  ⟨by simp [IndexedScalars.setAt, h.size], h.index⟩

theorem change (h : t.Coherent) (c : Change) : (t.change c).2.Coherent := by
  cases c with
  | set name x => exact (h.allocate name).setAt _ x
  | assign name => exact h.allocate name
  | write i x =>
    simp only [IndexedScalars.change, write]
    split
    · exact h
    · exact h.setAt i x

end Coherent

theorem indexOf?_allocate_self (t : IndexedScalars) (name : String) :
    (t.allocate name).2.indexOf? name = some (t.allocate name).1 := by
  unfold allocate
  split
  · assumption
  · simp [indexOf?]

theorem indexOf?_allocate_of_some (hi : t.indexOf? other = some i) :
    (t.allocate name).2.indexOf? other = some i := by
  unfold allocate
  split
  · exact hi
  · rename_i hnone
    have hne : name ≠ other := by
      rintro rfl
      rw [hnone] at hi
      cases hi
    rw [indexOf?, Std.HashMap.getElem?_insert, if_neg (by simpa using hne)]
    exact hi

theorem indexOf?_change_of_some (c : Change) (hi : t.indexOf? name = some i) :
    (t.change c).2.indexOf? name = some i := by
  cases c with
  | set n x => exact indexOf?_allocate_of_some hi
  | assign n => exact indexOf?_allocate_of_some hi
  | write j x =>
    simp only [change, write]
    split
    · exact hi
    · exact hi

/-- An index outlasts whatever happens later. -/
theorem indexOf?_run_of_some (changes : List Change) (hi : t.indexOf? name = some i) :
    (t.run changes).indexOf? name = some i := by
  induction changes generalizing t with
  | nil => exact hi
  | cons c changes ih => exact ih (indexOf?_change_of_some c hi)

/-- A change of a name answers with the index that the name has afterwards. -/
theorem exists_indexOf?_change {c : Change} (hname : c.name? = some name) :
    ∃ i, (t.change c).1 = .ok i ∧ (t.change c).2.indexOf? name = some i := by
  cases c with
  | set n x =>
    cases hname
    exact ⟨_, rfl, t.indexOf?_allocate_self name⟩
  | assign n =>
    cases hname
    exact ⟨_, rfl, t.indexOf?_allocate_self name⟩
  | write i x => cases hname

theorem change_eq_of_error {c : Change} {e : EvalError} (h : (t.change c).1 = .error e) :
    (t.change c).2 = t := by
  cases c with
  | set n x => cases h
  | assign n => cases h
  | write i x =>
    simp only [change, write] at h ⊢
    split at h
    · rfl
    · cases h

theorem get?_allocate (h : t.Coherent) (name other : String) :
    (t.allocate name).2.get? other =
      if name = other then (t.get? other).or (some 0.0) else t.get? other := by
  unfold allocate
  split
  · rename_i i hi
    split
    · rename_i hname
      subst hname
      have hlt := h.lt_of_indexOf? hi
      rw [get?, hi, Option.bind_some, Array.getElem?_eq_getElem hlt, Option.some_or]
    · rfl
  · rename_i hnone
    rw [get?, indexOf?, Std.HashMap.getElem?_insert]
    by_cases hname : name = other
    · subst hname
      simp [get?, hnone]
    · rw [if_neg (by simpa using hname), if_neg hname, get?, indexOf?]
      cases hi : t.index[other]? with
      | none => rfl
      | some i => simp [Array.getElem?_push, Nat.ne_of_lt (h.lt_of_indexOf? hi)]

theorem get?_setAt (h : t.Coherent) (i : Nat) (x : Float) (name : String) :
    (t.setAt i x).get? name = if t.names[i]? = some name then some x else t.get? name := by
  change ((t.indexOf? name).bind fun j => (t.values.setIfInBounds i x)[j]?) = _
  split
  · rename_i hi
    have hi : t.indexOf? name = some i := (h.index name i).mpr hi
    rw [hi, Option.bind_some, Array.getElem?_setIfInBounds_self_of_lt (h.lt_of_indexOf? hi)]
  · rename_i hi
    cases hj : t.indexOf? name with
    | none => simp [get?, hj]
    | some j =>
      have hne : i ≠ j := fun hij => hi ((h.index name i).mp (hij ▸ hj))
      simp [get?, hj, Array.getElem?_setIfInBounds_ne hne]

theorem get?_set (h : t.Coherent) (name : String) (x : Float) (other : String) :
    (t.set name x).2.get? other = if name = other then some x else t.get? other := by
  have hself := ((h.allocate name).index name _).mp (t.indexOf?_allocate_self name)
  change ((t.allocate name).2.setAt (t.allocate name).1 x).get? other = _
  rw [get?_setAt (h.allocate name), get?_allocate h, hself]
  simp only [Option.some.injEq]
  split
  · rfl
  · rfl

theorem names_allocate (h : t.Coherent) (name : String) : (t.allocate name).2.names.toList =
    if name ∈ t.names.toList then t.names.toList else t.names.toList ++ [name] := by
  have hmem : name ∈ t.names.toList ↔ ∃ i, t.indexOf? name = some i := by
    simp only [List.mem_iff_getElem?, Array.getElem?_toList]
    exact exists_congr fun i => (h.index name i).symm
  unfold allocate
  split
  · rename_i i hi
    rw [if_pos (hmem.mpr ⟨i, hi⟩)]
  · rename_i hnone
    rw [if_neg fun hname => by
      obtain ⟨i, hi⟩ := hmem.mp hname
      exact Option.some_ne_none i (hi.symm.trans hnone)]
    exact Array.toList_push

/-! ### Histories -/

theorem eraseDups_concat (names : List String) (name : String) :
    (names ++ [name]).eraseDups =
      if name ∈ names then names.eraseDups else names.eraseDups ++ [name] := by
  rw [List.eraseDups_append, List.removeAll, List.filter_singleton]
  split
  · rename_i hmem
    simp [hmem]
  · rename_i hmem
    simp [hmem, List.eraseDups_cons]

theorem namesOf_concat (history : List Change) (c : Change) :
    namesOf (history ++ [c]) =
      match c.name? with
      | some name =>
        if name ∈ namesOf history then namesOf history else namesOf history ++ [name]
      | none => namesOf history := by
  simp only [namesOf, List.filterMap_append, List.filterMap_cons, List.filterMap_nil,
    List.mem_eraseDups]
  cases c.name? with
  | none => exact congrArg _ (List.append_nil _)
  | some name => exact eraseDups_concat _ name

/-- The scalars are what a history makes of none. -/
structure Follows (history : List Change) (t : IndexedScalars) : Prop where
  coherent : t.Coherent
  names : t.names.toList = namesOf history
  values : ∀ name, t.get? name = latest? name history.reverse

namespace Follows

variable {history : List Change}

theorem nil : Follows [] {} := ⟨.empty, rfl, fun _ => by simp [get?, indexOf?, latest?]⟩

theorem concat (h : Follows history t) (c : Change) :
    Follows (history ++ [c]) (t.change c).2 := by
  have hnames := namesOf_concat history c
  have hget : (history ++ [c]).reverse = c :: history.reverse := by simp
  cases c with
  | set name x =>
    refine ⟨h.coherent.change _, ?_, fun other => ?_⟩
    · rw [hnames, ← h.names]
      exact names_allocate h.coherent name
    · rw [hget, latest?, ← h.values]
      exact get?_set h.coherent name x other
  | assign name =>
    refine ⟨h.coherent.change _, ?_, fun other => ?_⟩
    · rw [hnames, ← h.names]
      exact names_allocate h.coherent name
    · rw [hget, latest?, ← h.values]
      exact get?_allocate h.coherent name other
  | write i x =>
    have hset : (t.change (.write i x)).2 = t.setAt i x := by
      simp only [change, write]
      split
      · rename_i hnone
        rw [setAt, Array.setIfInBounds_eq_of_size_le (Array.getElem?_eq_none_iff.mp hnone)]
      · rfl
    rw [hset]
    refine ⟨h.coherent.setAt i x, hnames ▸ h.names, fun other => ?_⟩
    rw [hget, latest?, List.reverse_reverse, ← h.names, Array.getElem?_toList, ← h.values]
    exact get?_setAt h.coherent i x other

theorem append (h : Follows history t) (changes : List Change) :
    Follows (history ++ changes) (t.run changes) := by
  induction changes generalizing history t with
  | nil =>
    rw [List.append_nil]
    exact h
  | cons c changes ih =>
    rw [List.append_cons]
    exact ih (h.concat c)

theorem ofList (pairs : List (String × Float)) :
    Follows (pairs.map fun pair => .set pair.1 pair.2) (ofList pairs) := by
  have hrun : IndexedScalars.ofList pairs =
      ({} : IndexedScalars).run (pairs.map fun pair => .set pair.1 pair.2) := by
    simp only [IndexedScalars.ofList, run, List.foldl_map]
    rfl
  rw [hrun]
  exact nil.append _

end Follows

theorem latest?_set (pairs : List (String × Float)) (name : String) :
    latest? name (pairs.map fun pair => .set pair.1 pair.2) = pairs.lookup name := by
  induction pairs with
  | nil => rfl
  | cons pair pairs ih =>
    rw [List.map_cons, latest?, ih, List.lookup_cons]
    by_cases hname : pair.1 = name
    · simp [hname]
    · have hname' : (name == pair.1) = false := beq_eq_false_iff_ne.mpr (Ne.symm hname)
      rw [if_neg hname, hname']

/-! ### The same scalars without an index -/

theorem indexOf?_scalars (h : t.Coherent) (name : String) :
    t.scalars.indexOf? name = t.indexOf? name := by
  refine (findIdx?_zip h.size.symm name).trans (Option.ext fun i => ?_)
  have hnodup : (t.names.toList.map id).Nodup := by
    rw [List.map_id]
    exact h.nodup
  refine (findIdx?_eq_some_iff_of_nodup hnodup).trans ?_
  rw [indexOf?, h.index]
  exact exists_eq_right

theorem scalars_allocate (h : t.Coherent) (name : String) :
    t.scalars.allocate name = ((t.allocate name).1, (t.allocate name).2.scalars) := by
  rw [Scalars.allocate, indexOf?_scalars h, allocate]
  cases t.indexOf? name with
  | some i => rfl
  | none =>
    refine Prod.ext ?_ (congrArg Scalars.mk (zip_push h.size.symm name 0.0).symm)
    simp [Scalars.size, scalars, h.size]

theorem scalars_setAt (t : IndexedScalars) (i : Nat) (x : Float) :
    t.scalars.setAt i x = (t.setAt i x).scalars :=
  congrArg Scalars.mk (zip_setIfInBounds t.names t.values i x).symm

theorem scalars_change (h : t.Coherent) (c : Change) :
    t.scalars.change c = ((t.change c).1, (t.change c).2.scalars) := by
  cases c with
  | set name x =>
    rw [Scalars.change, Scalars.set, scalars_allocate h]
    exact Prod.ext rfl (scalars_setAt _ _ x)
  | assign name =>
    rw [Scalars.change, scalars_allocate h]
    rfl
  | write i x =>
    have hsize : t.scalars.size = t.values.size := by simp [Scalars.size, scalars, h.size]
    rw [Scalars.change, Scalars.write, hsize, change, write]
    by_cases hi : i < t.values.size
    · rw [if_pos hi, Array.getElem?_eq_getElem hi, scalars_setAt]
    · rw [if_neg hi, Array.getElem?_eq_none (Nat.not_lt.mp hi)]

theorem scalars_run (h : t.Coherent) (changes : List Change) :
    t.scalars.run changes = (t.run changes).scalars := by
  induction changes generalizing t with
  | nil => rfl
  | cons c changes ih =>
    rw [Scalars.run, List.foldl_cons, scalars_change h]
    exact ih (h.change c)

theorem scalars_ofList (pairs : List (String × Float)) :
    (ofList pairs).scalars = Scalars.ofList pairs := by
  have hempty : ({} : IndexedScalars).scalars = {} := by simp [scalars]
  have hrun := scalars_run .empty (pairs.map fun pair => .set pair.1 pair.2)
  rw [hempty, Scalars.run, run, List.foldl_map, List.foldl_map] at hrun
  exact hrun.symm

/-- Whatever is set, assigned or written, in whatever order and with whatever failures: the names
differ, the index is their inverse, each has one value, and the three say what the history says. An
index is kept for good, a failure changes nothing, and scalars without an index answer the same. -/
theorem indexed_run (pairs : List (String × Float)) (changes : List Change) :
    let t := (ofList pairs).run changes
    let history := (pairs.map fun pair => .set pair.1 pair.2) ++ changes
    t.names.toList.Nodup ∧
    (∀ (name : String) (i : Nat), t.index[name]? = some i ↔ t.names[i]? = some name) ∧
    t.values.size = t.names.size ∧
    t.names.toList = namesOf history ∧
    (∀ name, t.get? name = latest? name history.reverse) ∧
    (∀ later name i, t.indexOf? name = some i → (t.run later).indexOf? name = some i) ∧
    (∀ c name, c.name? = some name →
      ∃ i, (t.change c).1 = .ok i ∧ (t.change c).2.indexOf? name = some i) ∧
    (∀ c e, (t.change c).1 = .error e → (t.change c).2 = t) ∧
    t.scalars = (Scalars.ofList pairs).run changes ∧
    (∀ c, ((t.change c).1, (t.change c).2.scalars) = t.scalars.change c) ∧
    (ofList pairs).names.toList = (pairs.map Prod.fst).eraseDups ∧
    (∀ name, (ofList pairs).get? name = pairs.reverse.lookup name) := by
  intro t history
  have hstart := Follows.ofList pairs
  have hfollows : Follows history t := hstart.append changes
  have hcoherent := hfollows.coherent
  refine ⟨hcoherent.nodup, hcoherent.index, hcoherent.size, hfollows.names, hfollows.values,
    fun later _ _ => indexOf?_run_of_some later, fun _ _ => exists_indexOf?_change,
    fun _ _ => change_eq_of_error, ?_, fun c => (scalars_change hcoherent c).symm, ?_,
    fun name => ?_⟩
  · rw [← scalars_ofList, scalars_run hstart.coherent]
  · rw [hstart.names, namesOf, List.filterMap_map, ← List.filterMap_eq_map]
    rfl
  · rw [hstart.values, ← List.map_reverse, latest?_set]

end IndexedScalars

end ChoiceModel.Store
