import ChoiceModel.Proofs.Store.RowMajor

/-! Matrices in one array, entries that hold their places in it, and an index of the entries' names. A
matrix is put into the array before its name is looked at, so a refused addition leaves it there. Whatever
additions succeed or fail, every place that an entry holds is one of a matrix, and the index is the inverse
of the entries. -/

namespace ChoiceModel.Store

open Expression (EvalError)
open Model (Defect)

def EntryKind.isSingle : EntryKind → Bool
  | matrix | member .. => true
  | array | collection => false

/-- An entry with the places of its matrices. -/
structure IndexedEntry where
  name : String
  kind : EntryKind
  orientation : Orientation
  places : Array Nat

def IndexedEntry.listed (e : IndexedEntry) : String × EntryKind × Orientation :=
  (e.name, e.kind, e.orientation)

structure IndexedMatrices where
  matrices : Array RowMajor := #[]
  entries : Array IndexedEntry := #[]
  index : Std.HashMap String Nat := ∅

namespace IndexedMatrices

/-! ### Additions -/

inductive Addition where
  | matrix (m : RowMajor) (orientation : Orientation)
  | array (name : String) (members : Array RowMajor) (orientation : Orientation)
  | collection (name : String) (members : Array RowMajor) (orientation : Orientation)

def pushMatrix (t : IndexedMatrices) (m : RowMajor) : Nat × IndexedMatrices :=
  (t.matrices.size, { t with matrices := t.matrices.push m })

def pushMatrices (t : IndexedMatrices) : List RowMajor → List Nat × IndexedMatrices
  | [] => ([], t)
  | m :: rest =>
    let (place, t) := t.pushMatrix m
    let (places, t) := pushMatrices t rest
    (place :: places, t)

def push (t : IndexedMatrices) (e : IndexedEntry) : IndexedMatrices :=
  { t with entries := t.entries.push e, index := t.index.insert e.name t.entries.size }

def add (t : IndexedMatrices) (e : IndexedEntry) : Except Defect Nat × IndexedMatrices :=
  if t.index.contains e.name then (.error (.duplicateMatrix e.name), t)
  else (.ok t.entries.size, t.push e)

def addMatrix (t : IndexedMatrices) (m : RowMajor) (orientation : Orientation) :
    Except Defect Nat × IndexedMatrices :=
  let (place, t) := t.pushMatrix m
  t.add ⟨m.name, .matrix, orientation, #[place]⟩

def addArray (t : IndexedMatrices) (name : String) (members : Array RowMajor)
    (orientation : Orientation) : Except Defect Nat × IndexedMatrices :=
  let (places, t) := t.pushMatrices members.toList
  t.add ⟨name, .array, orientation, places.toArray⟩

/-- Adds the members of a collection, counted from `number`, under the names of the matrices at their
places, unless there is no matrix at one of these. -/
def addMembers (orientation : Orientation) (collection number : Nat) :
    List Nat → IndexedMatrices → Option (Except Defect Unit × IndexedMatrices)
  | [], t => some (.ok (), t)
  | place :: rest, t =>
    match t.matrices[place]? with
    | none => none
    | some m =>
      match t.add ⟨m.name, .member collection number, orientation, #[place]⟩ with
      | (.ok _, t) => addMembers orientation collection (number + 1) rest t
      | (.error d, t) => some (.error d, t)

def addCollection (t : IndexedMatrices) (name : String) (members : Array RowMajor)
    (orientation : Orientation) : Option (Except Defect Nat × IndexedMatrices) :=
  let collection := t.entries.size
  let (places, t) := t.pushMatrices members.toList
  match t.add ⟨name, .collection, orientation, places.toArray⟩ with
  | (.error d, t) => some (.error d, t)
  | (.ok _, t) =>
    (addMembers orientation collection 1 places t).map
      (Prod.map (Except.map fun _ => collection) id)

/-- The answer of an addition and the store after it, unless it looks for a matrix where there is none. -/
def perform (t : IndexedMatrices) : Addition → Option (Except Defect Nat × IndexedMatrices)
  | .matrix m orientation => some (t.addMatrix m orientation)
  | .array name members orientation => some (t.addArray name members orientation)
  | .collection name members orientation => t.addCollection name members orientation

/-- The store after additions, whether they succeed or fail. -/
def performAll (t : IndexedMatrices) (additions : List Addition) : Option IndexedMatrices :=
  additions.foldlM (fun t a => (t.perform a).map Prod.snd) t

/-! ### Lookups, which have no answer where a place is out of range -/

def indexOf? (t : IndexedMatrices) (name : String) : Option Nat := t.index[name]?

def matrix? (t : IndexedMatrices) (name : String) : Option (Option RowMajor) :=
  match t.indexOf? name with
  | none => some none
  | some i => do
    let e ← t.entries[i]?
    match e.kind.isSingle, e.places[0]? with
    | true, some place => t.matrices[place]?.map some
    | _, _ => some none

/-- Single matrices and members of collections can be read. -/
def readIndex? (t : IndexedMatrices) (name : String) : Option (Option Nat) :=
  match t.indexOf? name with
  | none => some none
  | some i => t.entries[i]?.map fun e => if e.kind.isSingle then some i else none

/-- Groups come first, and any other name is that of a value. -/
def arrayIndex? (t : IndexedMatrices) (name : String) : Option (Option Nat) :=
  match t.indexOf? name with
  | none => some none
  | some i => do
    let e ← t.entries[i]?
    if e.kind.isSingle then t.readIndex? name else some (some i)

def read (t : IndexedMatrices) (i : Nat) (trip : Nat × Nat) : Option (Except EvalError Float) :=
  match t.entries[i]? with
  | none => some (.error (.unbound i))
  | some e =>
    match e.kind.isSingle, e.places[0]? with
    | true, some place =>
      let (row, column) := e.orientation.cell trip.1 trip.2
      t.matrices[place]?.map fun m => m.cell row column
    | _, _ => some (.error (.unbound i))

def readIndexed (t : IndexedMatrices) (i : Nat) (subscript : Float) (trip : Nat × Nat) :
    Option (Except EvalError Float) :=
  match t.entries[i]? with
  | none => some (.error (.unbound i))
  | some e =>
    if e.kind.isSingle then some (.error (.notSubscriptable e.name))
    else
      match subscriptPosition subscript e.places.size with
      | none => some (.error (.subscript e.name subscript))
      | some k => do
        let place ← e.places[k]?
        let m ← t.matrices[place]?
        let (row, column) := e.orientation.cell trip.1 trip.2
        return m.cell row column

def write (t : IndexedMatrices) (i : Nat) : Except EvalError IndexedMatrices :=
  match t.entries[i]? with
  | none => .error (.unbound i)
  | some e => .error (.readOnly e.name)

variable {t u w : IndexedMatrices} {e : IndexedEntry} {es rest : List IndexedEntry} {name : String}
  {i place : Nat}

/-! ### What an addition does -/

/-- The entries for the members of a collection, counted from `number`, with their matrices from `place`
on. -/
def memberEntries (orientation : Orientation) (collection number place : Nat) :
    List RowMajor → List IndexedEntry
  | [] => []
  | m :: rest =>
    ⟨m.name, .member collection number, orientation, #[place]⟩ ::
      memberEntries orientation collection (number + 1) (place + 1) rest

namespace Addition

def matrices : Addition → List RowMajor
  | matrix m _ => [m]
  | array _ members _ | collection _ members _ => members.toList

/-- The entry that carries the name of an addition, with its matrices from `place` on. -/
def first (place : Nat) : Addition → IndexedEntry
  | matrix m orientation => ⟨m.name, .matrix, orientation, #[place]⟩
  | array name members orientation =>
    ⟨name, .array, orientation, (List.range' place members.size).toArray⟩
  | collection name members orientation =>
    ⟨name, .collection, orientation, (List.range' place members.size).toArray⟩

/-- The entries that come after the first one, which is the entry `i`. -/
def others (i place : Nat) : Addition → List IndexedEntry
  | matrix .. | array .. => []
  | collection _ members orientation => memberEntries orientation i 1 place members.toList

end Addition

def withMatrices (t : IndexedMatrices) (ms : List RowMajor) : IndexedMatrices :=
  { t with matrices := t.matrices ++ ms.toArray }

/-- Registering `es` in order takes `t` to `u`, where `rest` is left from the first name that is taken. -/
inductive Registers : List IndexedEntry → IndexedMatrices → List IndexedEntry → IndexedMatrices → Prop
  where
  | done (t : IndexedMatrices) : Registers [] t [] t
  | taken {t : IndexedMatrices} {e : IndexedEntry} {es : List IndexedEntry} {i : Nat}
    (h : t.indexOf? e.name = some i) : Registers (e :: es) t (e :: es) t
  | added {t u : IndexedMatrices} {e : IndexedEntry} {es rest : List IndexedEntry}
    (h : t.indexOf? e.name = none) (hrest : Registers es (t.push e) rest u) :
    Registers (e :: es) t rest u

/-- The answer of an addition that leaves `rest`. -/
def outcome {α : Type} (a : α) : List IndexedEntry → Except Defect α
  | [] => .ok a
  | e :: _ => .error (.duplicateMatrix e.name)

theorem pushMatrices_eq (t : IndexedMatrices) (ms : List RowMajor) :
    t.pushMatrices ms = (List.range' t.matrices.size ms.length, t.withMatrices ms) := by
  induction ms generalizing t with
  | nil => simp [pushMatrices, withMatrices]
  | cons m ms ih =>
    simp only [pushMatrices, pushMatrix, ih, withMatrices, Array.size_push, List.length_cons,
      List.range'_succ, Prod.mk.injEq, mk.injEq, true_and, and_true]
    simp

theorem add_of_taken (h : t.indexOf? e.name = some i) :
    t.add e = (.error (.duplicateMatrix e.name), t) := by
  have htaken : t.index.contains e.name = true := by
    rw [Std.HashMap.contains_eq_isSome_getElem?]
    exact Option.isSome_of_eq_some h
  rw [add, if_pos htaken]

theorem add_of_free (h : t.indexOf? e.name = none) : t.add e = (.ok t.entries.size, t.push e) := by
  have hfree : ¬ t.index.contains e.name = true := by
    rw [Std.HashMap.contains_eq_isSome_getElem?, Option.not_isSome_iff_eq_none]
    exact h
  rw [add, if_neg hfree]

theorem add_registers (t : IndexedMatrices) (e : IndexedEntry) :
    ∃ rest u, t.add e = (outcome t.entries.size rest, u) ∧ Registers [e] t rest u := by
  cases hname : t.indexOf? e.name with
  | some i => exact ⟨[e], t, add_of_taken hname, .taken hname⟩
  | none => exact ⟨[], t.push e, add_of_free hname, .added hname (.done _)⟩

/-- No member of a collection is looked for where there is no matrix. -/
theorem addMembers_registers (orientation : Orientation) (collection number place : Nat)
    {ms : List RowMajor} (hms : ∀ (j : Nat) m, ms[j]? = some m → t.matrices[place + j]? = some m) :
    ∃ rest u, addMembers orientation collection number (List.range' place ms.length) t =
        some (outcome () rest, u) ∧
      Registers (memberEntries orientation collection number place ms) t rest u := by
  induction ms generalizing number place t with
  | nil => exact ⟨[], t, rfl, .done t⟩
  | cons m ms ih =>
    have hm : t.matrices[place]? = some m := hms 0 m rfl
    rw [List.length_cons, List.range'_succ, addMembers, hm, memberEntries]
    simp only
    generalize he : (⟨m.name, .member collection number, orientation, #[place]⟩ : IndexedEntry) = e
    cases hname : t.indexOf? e.name with
    | some i =>
      rw [add_of_taken hname]
      exact ⟨_, t, rfl, .taken hname⟩
    | none =>
      rw [add_of_free hname]
      obtain ⟨rest, u, hadd, hregisters⟩ :=
        ih (t := t.push e) (number + 1) (place + 1) fun j m' hm' => by
          rw [Nat.add_assoc, Nat.add_comm 1 j]
          exact hms (j + 1) m' hm'
      exact ⟨rest, u, hadd, .added hname hregisters⟩

theorem getElem?_withMatrices (t : IndexedMatrices) (ms : List RowMajor) (j : Nat) :
    (t.withMatrices ms).matrices[t.matrices.size + j]? = ms[j]? := by
  rw [withMatrices, Array.getElem?_append_right (Nat.le_add_right _ _), Nat.add_sub_cancel_left,
    List.getElem?_toArray]

/-- Every addition puts its matrices into the array and registers its entries one by one. -/
theorem perform_registers (t : IndexedMatrices) (a : Addition) :
    ∃ rest u, t.perform a = some (outcome t.entries.size rest, u) ∧
      Registers (a.first t.matrices.size :: a.others t.entries.size t.matrices.size)
        (t.withMatrices a.matrices) rest u := by
  cases a with
  | matrix m orientation =>
    obtain ⟨rest, u, hadd, hregisters⟩ := (t.withMatrices [m]).add_registers
      ⟨m.name, .matrix, orientation, #[t.matrices.size]⟩
    exact ⟨rest, u, congrArg some hadd, hregisters⟩
  | array name members orientation =>
    obtain ⟨rest, u, hadd, hregisters⟩ := (t.withMatrices members.toList).add_registers
      ⟨name, .array, orientation, (List.range' t.matrices.size members.size).toArray⟩
    refine ⟨rest, u, ?_, hregisters⟩
    rw [perform, addArray, pushMatrices_eq, Array.length_toList]
    exact congrArg some hadd
  | collection name members orientation =>
    simp only [perform, addCollection, pushMatrices_eq, Array.length_toList]
    generalize he : (⟨name, .collection, orientation,
      (List.range' t.matrices.size members.size).toArray⟩ : IndexedEntry) = e
    simp only [Addition.first, Addition.others, Addition.matrices, he]
    cases hname : (t.withMatrices members.toList).indexOf? e.name with
    | some i =>
      rw [add_of_taken hname]
      exact ⟨_, _, rfl, .taken hname⟩
    | none =>
      rw [add_of_free hname]
      -- by now the matrices of all members are in the array, also of those with a name that is taken
      obtain ⟨rest, u, hadd, hregisters⟩ := addMembers_registers orientation t.entries.size 1
        t.matrices.size (t := (t.withMatrices members.toList).push e)
        fun j m hm => (t.getElem?_withMatrices members.toList j).trans hm
      rw [Array.length_toList] at hadd
      refine ⟨rest, u, ?_, .added hname hregisters⟩
      simp only [hadd]
      cases rest with
      | nil => rfl
      | cons e rest => rfl

theorem Registers.exists_added (h : Registers es t rest u) :
    ∃ added, es = added ++ rest ∧ u.entries = t.entries ++ added.toArray := by
  induction h with
  | done t => exact ⟨[], rfl, by simp⟩
  | taken _ => exact ⟨[], rfl, by simp⟩
  | @added t u e es rest _ _ ih =>
    obtain ⟨added, rfl, hentries⟩ := ih
    exact ⟨e :: added, rfl, by simp [hentries, push]⟩

/-! ### The index and the places -/

/-- What `t` has stands in `u` as well, at the same place. -/
structure Grows (t u : IndexedMatrices) : Prop where
  matrices : ∀ (i : Nat) m, t.matrices[i]? = some m → u.matrices[i]? = some m
  entries : ∀ (i : Nat) e, t.entries[i]? = some e → u.entries[i]? = some e
  index : ∀ name i, t.indexOf? name = some i → u.indexOf? name = some i

namespace Grows

theorem refl (t : IndexedMatrices) : t.Grows t := ⟨fun _ _ => id, fun _ _ => id, fun _ _ => id⟩

theorem trans (h : t.Grows u) (h' : u.Grows w) : t.Grows w :=
  ⟨fun i m hm => h'.matrices i m (h.matrices i m hm), fun i e he => h'.entries i e (h.entries i e he),
    fun name i hi => h'.index name i (h.index name i hi)⟩

theorem withMatrices (t : IndexedMatrices) (ms : List RowMajor) : t.Grows (t.withMatrices ms) where
  matrices i m hm := by
    rw [IndexedMatrices.withMatrices, Array.getElem?_append_left (Array.getElem?_eq_some_iff.mp hm).1]
    exact hm
  entries _ _ he := he
  index _ _ hi := hi

theorem push (hfree : t.indexOf? e.name = none) : t.Grows (t.push e) where
  matrices _ _ hm := hm
  entries i e' he := by
    rw [IndexedMatrices.push, Array.getElem?_push,
      if_neg (Nat.ne_of_lt (Array.getElem?_eq_some_iff.mp he).1)]
    exact he
  index name i hi := by
    have hne : (e.name == name) = false := by
      refine beq_eq_false_iff_ne.mpr fun hname => ?_
      rw [← hname, hfree] at hi
      cases hi
    rw [indexOf?, IndexedMatrices.push, Std.HashMap.getElem?_insert, hne, if_neg Bool.false_ne_true]
    exact hi

theorem lt_size (h : t.Grows u) (hplace : place < t.matrices.size) : place < u.matrices.size :=
  (Array.getElem?_eq_some_iff.mp
    (h.matrices place _ (Array.getElem?_eq_getElem hplace))).1

end Grows

theorem Registers.grows (h : Registers es t rest u) : t.Grows u := by
  induction h with
  | done t => exact .refl t
  | @taken t _ _ _ _ => exact .refl t
  | added hfree _ ih => exact (Grows.push hfree).trans ih

/-- An entry that may stand in a store: its places are those of matrices, a matrix or a member has one of
them, and that of a member is the one that its collection has under its number. -/
structure Fits (t : IndexedMatrices) (e : IndexedEntry) : Prop where
  inRange : ∀ place ∈ e.places, place < t.matrices.size
  single : e.kind.isSingle = true →
    ∃ place m, e.places = #[place] ∧ t.matrices[place]? = some m ∧ m.name = e.name
  member : ∀ c k, e.kind = .member c k → 0 < k ∧ ∃ group place, t.entries[c]? = some group ∧
    group.kind = .collection ∧ group.orientation = e.orientation ∧ e.places = #[place] ∧
      group.places[k - 1]? = some place

theorem Fits.mono (h : t.Fits e) (hgrows : t.Grows u) : u.Fits e where
  inRange place hplace := hgrows.lt_size (h.inRange place hplace)
  single hsingle := by
    obtain ⟨place, m, hplaces, hm, hname⟩ := h.single hsingle
    exact ⟨place, m, hplaces, hgrows.matrices place m hm, hname⟩
  member c k hkind := by
    obtain ⟨hk, group, place, hgroup, hplace⟩ := h.member c k hkind
    exact ⟨hk, group, place, hgrows.entries c group hgroup, hplace⟩

/-- The index is the inverse of the entries, and every entry fits. -/
structure Coherent (t : IndexedMatrices) : Prop where
  index : ∀ name i, t.indexOf? name = some i ↔ ∃ e, t.entries[i]? = some e ∧ e.name = name
  fits : ∀ e ∈ t.entries, t.Fits e

namespace Coherent

theorem empty : Coherent {} := ⟨fun name i => by simp [indexOf?], fun _ h => by simp at h⟩

theorem nodup (h : t.Coherent) : (t.entries.toList.map IndexedEntry.name).Nodup := by
  refine List.nodup_iff_getElem?_ne_getElem?.mpr fun i j hij hj hsame => ?_
  rw [List.length_map, Array.length_toList] at hj
  have hjth := Array.getElem?_eq_getElem hj
  have hith := Array.getElem?_eq_getElem (Nat.lt_trans hij hj)
  rw [List.getElem?_map, List.getElem?_map, Array.getElem?_toList, Array.getElem?_toList, hith, hjth,
    Option.map_some, Option.map_some, Option.some.injEq] at hsame
  have hi := (h.index _ i).mpr ⟨_, hith, hsame⟩
  rw [(h.index _ j).mpr ⟨_, hjth, rfl⟩] at hi
  exact Nat.ne_of_gt hij (Option.some.inj hi)

theorem withMatrices (h : t.Coherent) (ms : List RowMajor) : (t.withMatrices ms).Coherent :=
  ⟨h.index, fun e he => (h.fits e he).mono (.withMatrices t ms)⟩

theorem push (h : t.Coherent) (hfree : t.indexOf? e.name = none) (he : t.Fits e) :
    (t.push e).Coherent := by
  have hgrows : t.Grows (t.push e) := .push hfree
  refine ⟨fun name i => ?_, fun e' he' => ?_⟩
  · rw [indexOf?, IndexedMatrices.push, Std.HashMap.getElem?_insert, Array.getElem?_push]
    by_cases hname : e.name = name
    · subst hname
      rw [if_pos (beq_self_eq_true _), Option.some.injEq, eq_comm]
      split
      · rename_i hi
        exact iff_of_true hi ⟨e, rfl, rfl⟩
      · rename_i hi
        refine iff_of_false hi fun hold => ?_
        rw [← h.index, hfree] at hold
        cases hold
    · rw [if_neg (by simpa using hname), ← indexOf?, h.index]
      split
      · rename_i hi
        subst hi
        simp [hname]
      · rfl
  · rcases Array.mem_push.mp he' with he' | rfl
    · exact (h.fits e' he').mono hgrows
    · exact he.mono hgrows

end Coherent

theorem Registers.coherent (h : Registers es t rest u) (ht : t.Coherent) (hes : ∀ e ∈ es, t.Fits e) :
    u.Coherent := by
  induction h with
  | done t => exact ht
  | taken _ => exact ht
  | added hfree _ ih =>
    obtain ⟨he, hes⟩ := List.forall_mem_cons.mp hes
    exact ih (ht.push hfree he) fun e' he' => (hes e' he').mono (.push hfree)

theorem getElem?_memberEntries (orientation : Orientation) (collection number place : Nat)
    (ms : List RowMajor) (j : Nat) :
    (memberEntries orientation collection number place ms)[j]? = ms[j]?.map fun m =>
      ⟨m.name, .member collection (number + j), orientation, #[place + j]⟩ := by
  induction ms generalizing number place j with
  | nil => rfl
  | cons m ms ih =>
    cases j with
    | zero => rfl
    | succ j =>
      rw [memberEntries, List.getElem?_cons_succ, ih, List.getElem?_cons_succ, Nat.add_right_comm,
        Nat.add_right_comm place]
      rfl

/-- The entries of a collection's members fit once the collection has its place. -/
theorem fits_memberEntries (group : IndexedEntry) {c : Nat} {ms : List RowMajor}
    (hgroup : t.entries[c]? = some group) (hkind : group.kind = .collection)
    (hplaces : group.places = (List.range' place ms.length).toArray)
    (hms : ∀ (j : Nat) m, ms[j]? = some m → t.matrices[place + j]? = some m) :
    ∀ e ∈ memberEntries group.orientation c 1 place ms, t.Fits e := by
  intro e he
  obtain ⟨j, hj⟩ := List.mem_iff_getElem?.mp he
  rw [getElem?_memberEntries] at hj
  obtain ⟨m, hm, rfl⟩ := Option.map_eq_some_iff.mp hj
  obtain ⟨hlt, -⟩ := List.getElem?_eq_some_iff.mp hm
  refine ⟨fun p hp => ?_, fun _ => ⟨_, m, rfl, hms j m hm, rfl⟩, fun c' k hmember => ?_⟩
  · rw [Array.mem_singleton.mp hp]
    exact (Array.getElem?_eq_some_iff.mp (hms j m hm)).1
  · cases hmember
    refine ⟨Nat.add_pos_left Nat.one_pos j, group, _, hgroup, hkind, rfl, rfl, ?_⟩
    rw [hplaces, Nat.add_sub_cancel_left, List.getElem?_toArray, List.getElem?_range' hlt, Nat.one_mul]

theorem fits_first (t : IndexedMatrices) (a : Addition) :
    (t.withMatrices a.matrices).Fits (a.first t.matrices.size) := by
  have hsize : (t.withMatrices a.matrices).matrices.size = t.matrices.size + a.matrices.length := by
    simp [withMatrices]
  cases a with
  | matrix m orientation =>
    refine ⟨fun p hp => ?_, fun _ => ⟨_, m, rfl, t.getElem?_withMatrices [m] 0, rfl⟩, nofun⟩
    rw [hsize, Array.mem_singleton.mp hp]
    exact Nat.lt_succ_self _
  | array name members orientation | collection name members orientation =>
    refine ⟨fun p hp => ?_, nofun, nofun⟩
    rw [hsize]
    exact (List.mem_range'_1.mp (List.mem_toArray.mp hp)).2

theorem fits_others (t : IndexedMatrices) (a : Addition) :
    ∀ e ∈ a.others t.entries.size t.matrices.size,
      ((t.withMatrices a.matrices).push (a.first t.matrices.size)).Fits e := by
  cases a with
  | matrix m orientation => exact fun _ he => nomatch he
  | array name members orientation => exact fun _ he => nomatch he
  | collection name members orientation =>
    exact fits_memberEntries (Addition.first t.matrices.size (.collection name members orientation))
      Array.getElem?_push_size rfl rfl fun j m hm =>
        (t.getElem?_withMatrices members.toList j).trans hm

/-- No addition looks for a matrix where there is none, and the store stays in order and keeps what it
has, also if the addition is refused. -/
theorem Coherent.perform (h : t.Coherent) (a : Addition) :
    ∃ r u, t.perform a = some (r, u) ∧ t.Grows u ∧ u.Coherent := by
  obtain ⟨rest, u, hperform, hregisters⟩ := t.perform_registers a
  refine ⟨_, u, hperform, (Grows.withMatrices t _).trans hregisters.grows, ?_⟩
  have hmatrices := h.withMatrices a.matrices
  cases hregisters with
  -- the matrices stay in the array, where no entry holds them
  | taken _ => exact hmatrices
  | added hfree hrest =>
    exact hrest.coherent (hmatrices.push hfree (t.fits_first a)) (t.fits_others a)

theorem performAll_cons {a : Addition} {as : List Addition} {r : Except Defect Nat}
    (h : t.perform a = some (r, u)) : t.performAll (a :: as) = u.performAll as := by
  rw [performAll, List.foldlM_cons, h]
  rfl

theorem Coherent.performAll (h : t.Coherent) (additions : List Addition) :
    ∃ u, t.performAll additions = some u ∧ t.Grows u ∧ u.Coherent := by
  induction additions generalizing t with
  | nil => exact ⟨t, rfl, .refl t, h⟩
  | cons a additions ih =>
    obtain ⟨r, u, hperform, hgrows, hcoherent⟩ := h.perform a
    obtain ⟨w, hall, hgrows', hcoherent'⟩ := ih hcoherent
    exact ⟨w, (performAll_cons hperform).trans hall, hgrows.trans hgrows', hcoherent'⟩

end IndexedMatrices

end ChoiceModel.Store
