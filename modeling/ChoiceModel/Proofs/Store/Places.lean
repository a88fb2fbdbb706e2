import ChoiceModel.Proofs.Decimal.Whole
import ChoiceModel.Proofs.Store.IndexedMatrices

/-! The answers of a store whose entries hold places are those of a store whose entries have their matrices
inside, so no lookup is out of range. In both a member of a collection is read under its number as under
its name. -/

namespace ChoiceModel.Store

open Model (Defect)

/-- An entry has one matrix, or those of a group. -/
theorem Content.single_or_group (c : Content) :
    (∃ n, c.single? = some n ∧ c.members? = none ∧ c.kind.isSingle = true ∧ c.matrices = [n]) ∨
    ∃ ms, c.single? = none ∧ c.members? = some ms ∧ c.kind.isSingle = false ∧
      c.matrices = ms.toList := by
  cases c with
  | matrix m => exact .inl ⟨m, rfl, rfl, rfl, rfl⟩
  | member _ _ m => exact .inl ⟨m, rfl, rfl, rfl, rfl⟩
  | array members => exact .inr ⟨members, rfl, rfl, rfl, rfl⟩
  | collection members => exact .inr ⟨members, rfl, rfl, rfl, rfl⟩

namespace IndexedMatrices

variable {t u w : IndexedMatrices} {e : IndexedEntry} {es rest : List IndexedEntry} {name : String}
  {i place : Nat}

def Addition.nested : Addition → Store.Addition
  | matrix m orientation => .matrix m.nested orientation
  | array name members orientation => .array name (members.map RowMajor.nested) orientation
  | collection name members orientation => .collection name (members.map RowMajor.nested) orientation

/-- An entry whose places are those of the matrices that the other one holds. -/
structure Holds (t : IndexedMatrices) (e : IndexedEntry) (entry : Entry) : Prop where
  listed : e.listed = entry.listed
  matrices : e.places.toList.map (fun place => t.matrices[place]?.map RowMajor.nested) =
    entry.content.matrices.map some

/-- The two stores have the same index, and entries with the same matrices. -/
structure Shows (t : IndexedMatrices) (p : Matrices) : Prop where
  index : ∀ name, t.indexOf? name = p.indexOf? name
  entries : List.Forall₂ t.Holds t.entries.toList p.entries.toList

section Shows

variable {p q : Matrices} {entry : Entry} {entries left : List Entry}

theorem Holds.name_eq (h : t.Holds e entry) : e.name = entry.name := congrArg Prod.fst h.listed

theorem Holds.kind_eq (h : t.Holds e entry) : e.kind = entry.content.kind :=
  congrArg (fun listed => listed.2.1) h.listed

theorem Holds.orientation_eq (h : t.Holds e entry) : e.orientation = entry.orientation :=
  congrArg (fun listed => listed.2.2) h.listed

theorem Holds.mono (h : t.Holds e entry) (hgrows : t.Grows u) : u.Holds e entry := by
  refine ⟨h.listed, ?_⟩
  rw [← h.matrices]
  refine List.map_congr_left fun place hplace => ?_
  have hsome : t.matrices[place]?.map RowMajor.nested ∈ entry.content.matrices.map some := by
    rw [← h.matrices]
    exact List.mem_map_of_mem hplace
  obtain ⟨n, -, hn⟩ := List.mem_map.mp hsome
  obtain ⟨m, hm, -⟩ := Option.map_eq_some_iff.mp hn.symm
  rw [hm, hgrows.matrices place m hm]

theorem Shows.empty : Shows {} {} := ⟨fun name => by simp [indexOf?, Matrices.indexOf?], .nil⟩

theorem Shows.withMatrices (h : t.Shows p) (ms : List RowMajor) : (t.withMatrices ms).Shows p :=
  ⟨h.index, h.entries.imp fun _ _ he => he.mono (.withMatrices t ms)⟩

theorem Shows.size_eq (h : t.Shows p) : t.entries.size = p.entries.size := h.entries.length_eq

theorem Shows.push (h : t.Shows p) (hfree : t.indexOf? e.name = none) (he : t.Holds e entry) :
    (t.push e).Shows ⟨p.entries.push entry⟩ := by
  have hgrows : t.Grows (t.push e) := .push hfree
  refine ⟨fun name => ?_, ?_⟩
  · rw [indexOf?, IndexedMatrices.push, Std.HashMap.getElem?_insert, Matrices.indexOf?,
      Array.findIdx?_push, ← Matrices.indexOf?, ← h.index, he.name_eq, h.size_eq]
    by_cases hname : entry.name = name
    · rw [hname, ← hname, ← he.name_eq, hfree]
      simp
    · rw [beq_eq_false_iff_ne.mpr hname, if_neg Bool.false_ne_true, if_neg Bool.false_ne_true,
        Option.or_none]
      rfl
  · rw [IndexedMatrices.push, Array.toList_push, Array.toList_push]
    exact List.rel_append (h.entries.imp fun _ _ hold => hold.mono hgrows) (.cons (he.mono hgrows) .nil)

/-- Matrices that stand side by side in the array are held by the places from the first one on. -/
theorem map_range'_place {ms : List RowMajor}
    (hms : ∀ (j : Nat) m, ms[j]? = some m → t.matrices[place + j]? = some m) :
    (List.range' place ms.length).map (fun place => t.matrices[place]?.map RowMajor.nested) =
      (ms.map RowMajor.nested).map some := by
  refine List.ext_getElem? fun j => ?_
  cases hm : ms[j]? with
  | none =>
    have hle := List.getElem?_eq_none_iff.mp hm
    rw [List.getElem?_eq_none (by simpa), List.getElem?_eq_none (by simpa)]
  | some m =>
    have hlt := (List.getElem?_eq_some_iff.mp hm).1
    rw [List.getElem?_map, List.getElem?_range' hlt, Option.map_some, Nat.one_mul, hms j m hm,
      List.getElem?_map, List.getElem?_map, hm]
    rfl

theorem holds_memberEntries (orientation : Orientation) (c number : Nat) {ms : List RowMajor}
    (hms : ∀ (j : Nat) m, ms[j]? = some m → t.matrices[place + j]? = some m) :
    List.Forall₂ t.Holds (memberEntries orientation c number place ms)
      (Store.memberEntries orientation c number (ms.map RowMajor.nested)) := by
  induction ms generalizing number place with
  | nil => exact .nil
  | cons m ms ih =>
    refine .cons ⟨rfl, ?_⟩ (ih (number + 1) fun j m' hm' => ?_)
    · have hm : t.matrices[place]? = some m := hms 0 m rfl
      simp only [List.map_cons, List.map_nil, hm]
      rfl
    · rw [Nat.add_assoc, Nat.add_comm 1 j]
      exact hms (j + 1) m' hm'

theorem holds_entries (t : IndexedMatrices) (a : Addition) :
    List.Forall₂ (t.withMatrices a.matrices).Holds
      (a.first t.matrices.size :: a.others t.entries.size t.matrices.size)
      (a.nested.first :: a.nested.others t.entries.size) := by
  have hms := fun j m (hm : a.matrices[j]? = some m) => (t.getElem?_withMatrices a.matrices j).trans hm
  have hplaces := map_range'_place hms
  cases a with
  | matrix m orientation => exact .cons ⟨rfl, hplaces⟩ .nil
  | array name members orientation =>
    refine .cons ⟨rfl, ?_⟩ .nil
    simpa [Addition.first, Addition.nested, Store.Addition.first, Content.matrices,
      Addition.matrices] using hplaces
  | collection name members orientation =>
    refine .cons ⟨rfl, ?_⟩ ?_
    · simpa [Addition.first, Addition.nested, Store.Addition.first, Content.matrices,
        Addition.matrices] using hplaces
    · have hmembers := holds_memberEntries orientation t.entries.size 1 hms
      rw [Addition.others, Addition.nested, Store.Addition.others, Array.toList_map]
      exact hmembers

/-- Both stores register their entries up to the same name. -/
theorem Registers.shows (h : Registers es t rest u) (ht : t.Shows p)
    (hes : List.Forall₂ t.Holds es entries) : ∃ left q, Matrices.Registers entries p left q ∧
      u.Shows q ∧ List.Forall₂ u.Holds rest left := by
  induction h generalizing p entries with
  | done t =>
    cases hes
    exact ⟨[], p, .done p, ht, .nil⟩
  | taken htaken =>
    cases hes with
    | cons he hrest =>
      rw [ht.index, he.name_eq] at htaken
      exact ⟨_, p, .taken htaken, ht, .cons he hrest⟩
  | added hfree _ ih =>
    cases hes with
    | cons he hrest =>
      obtain ⟨left, q, hregisters, hshows, hleft⟩ :=
        ih (ht.push hfree he) (hrest.imp fun _ _ h => h.mono (.push hfree))
      rw [ht.index, he.name_eq] at hfree
      exact ⟨left, q, .added hfree hregisters, hshows, hleft⟩

theorem outcome_eq {α : Type} (a : α) (h : List.Forall₂ t.Holds rest left) :
    outcome a rest = Matrices.outcome a left := by
  cases h with
  | nil => rfl
  | cons he _ => exact congrArg (Except.error ∘ Defect.duplicateMatrix) he.name_eq

/-- An addition has the same answer in both stores, which stay alike. -/
theorem Shows.perform (h : t.Shows p) (a : Addition) :
    ∃ u, t.perform a = some ((p.perform a.nested).1, u) ∧ u.Shows (p.perform a.nested).2 := by
  obtain ⟨rest, u, hperform, hregisters⟩ := t.perform_registers a
  obtain ⟨left', hregisters', houtcome⟩ := p.perform_registers a.nested
  obtain ⟨left, q, hboth, hshows, hleft⟩ :=
    hregisters.shows (h.withMatrices a.matrices) (t.holds_entries a)
  rw [h.size_eq] at hboth
  obtain ⟨rfl, hq⟩ := hboth.unique hregisters'
  refine ⟨u, ?_, hq ▸ hshows⟩
  rw [hperform, houtcome, outcome_eq _ hleft, h.size_eq]

theorem Shows.performAll (h : t.Shows p) (additions : List Addition) :
    ∃ u, t.performAll additions = some u ∧ u.Shows (p.performAll (additions.map Addition.nested)) := by
  induction additions generalizing t p with
  | nil => exact ⟨t, rfl, h⟩
  | cons a additions ih =>
    obtain ⟨u, hperform, hshows⟩ := h.perform a
    obtain ⟨w, hall, hshows'⟩ := ih hshows
    exact ⟨w, (performAll_cons hperform).trans hall, hshows'⟩

/-! #### Answers -/

/-- Neither store has an entry at an index, or the entry of the one holds what that of the other has. -/
theorem Shows.cases_getElem? (h : t.Shows p) (i : Nat) :
    (t.entries[i]? = none ∧ p.entries[i]? = none) ∨
    ∃ e entry, t.entries[i]? = some e ∧ p.entries[i]? = some entry ∧ t.Holds e entry := by
  rw [← Array.getElem?_toList, ← Array.getElem?_toList]
  by_cases hi : i < t.entries.toList.length
  · have hi' : i < p.entries.toList.length := h.entries.length_eq ▸ hi
    exact .inr ⟨_, _, List.getElem?_eq_getElem hi, List.getElem?_eq_getElem hi',
      List.Forall₂.get h.entries hi hi'⟩
  · have hle := Nat.le_of_not_lt hi
    exact .inl ⟨List.getElem?_eq_none hle, List.getElem?_eq_none (h.entries.length_eq ▸ hle)⟩

/-- A matrix or a member has one place, and a group has one for every member. The matrices are there. -/
theorem Holds.single_or_group (h : t.Holds e entry) :
    (∃ place m, e.kind.isSingle = true ∧ e.places = #[place] ∧ t.matrices[place]? = some m ∧
      entry.content.single? = some m.nested ∧ entry.content.members? = none) ∨
    ∃ ms, e.kind.isSingle = false ∧ entry.content.single? = none ∧ entry.content.members? = some ms ∧
      e.places.size = ms.size ∧ ∀ k < ms.size, ∃ place m, e.places[k]? = some place ∧
        t.matrices[place]? = some m ∧ ms[k]? = some m.nested := by
  have hplaces := h.matrices
  rw [h.kind_eq]
  rcases entry.content.single_or_group with ⟨n, hn, hmembers, hkind, hmatrices⟩ |
    ⟨ms, hsingle, hms, hkind, hmatrices⟩
  · rw [hmatrices] at hplaces
    obtain ⟨place, hplace, hplaced⟩ := List.map_eq_singleton_iff.mp hplaces
    obtain ⟨m, hm, rfl⟩ := Option.map_eq_some_iff.mp hplaced
    exact .inl ⟨place, m, hkind, Array.toList_inj.mp hplace, hm, hn, hmembers⟩
  · rw [hmatrices] at hplaces
    have hsize : e.places.size = ms.size := by simpa using congrArg List.length hplaces
    refine .inr ⟨ms, hkind, hsingle, hms, hsize, fun k hk => ?_⟩
    have hplace := Array.getElem?_eq_getElem (hsize.symm ▸ hk)
    have hkth := congrArg (·[k]?) hplaces
    simp only [List.getElem?_map, Array.getElem?_toList, hplace, Array.getElem?_eq_getElem hk,
      Option.map_some, Option.some.injEq] at hkth
    obtain ⟨m, hm, hn⟩ := Option.map_eq_some_iff.mp hkth
    exact ⟨_, m, hplace, hm, by rw [hn, Array.getElem?_eq_getElem hk]⟩

/-- No lookup is out of range, and each has the answer of the other store. -/
structure Answers (t : IndexedMatrices) (p : Matrices) : Prop where
  listing : t.entries.map IndexedEntry.listed = p.entries.map Entry.listed
  indexOf? : ∀ name, t.indexOf? name = p.indexOf? name
  matrix? : ∀ name, (t.matrix? name).map (Option.map RowMajor.nested) = some (p.matrix? name)
  readIndex? : ∀ name, t.readIndex? name = some (p.readIndex? name)
  arrayIndex? : ∀ name, t.arrayIndex? name = some (p.indexOf? name)
  read : ∀ i trip, t.read i trip = some (p.read i trip)
  readIndexed : ∀ i subscript trip, t.readIndexed i subscript trip = some (p.readIndexed i subscript trip)
  write : ∀ i, t.write i = (p.write i).map fun _ => t
  perform : ∀ a, (t.perform a).map Prod.fst = some (p.perform a.nested).1

theorem Shows.read_eq (h : t.Shows p) (i : Nat) (trip : Nat × Nat) :
    t.read i trip = some (p.read i trip) := by
  rw [read, Matrices.read]
  rcases h.cases_getElem? i with ⟨he, hentry⟩ | ⟨e, entry, he, hentry, hholds⟩
  · rw [he, hentry]
  · rw [he, hentry]
    rcases hholds.single_or_group with ⟨place, m, hsingle, hplaces, hm, hn, -⟩ | ⟨ms, hgroup, hnone, -⟩
    · simp only [hsingle, hplaces, hn, hholds.orientation_eq, RowMajor.cell_nested]
      simp [hm]
    · simp only [hgroup, hnone]

theorem Shows.readIndexed_eq (h : t.Shows p) (i : Nat) (subscript : Float) (trip : Nat × Nat) :
    t.readIndexed i subscript trip = some (p.readIndexed i subscript trip) := by
  rw [readIndexed, Matrices.readIndexed]
  rcases h.cases_getElem? i with ⟨he, hentry⟩ | ⟨e, entry, he, hentry, hholds⟩
  · rw [he, hentry]
  · rw [he, hentry]
    rcases hholds.single_or_group with ⟨place, m, hsingle, -, -, -, hmembers⟩ |
      ⟨ms, hgroup, -, hms, hsize, hplaces⟩
    · simp only [hsingle, hmembers, hholds.name_eq, if_true]
    · simp only [hgroup, hms, hsize, hholds.name_eq, hholds.orientation_eq, Bool.false_eq_true, if_false]
      cases hk : subscriptPosition subscript ms.size with
      | none => rfl
      | some k =>
        obtain ⟨place, m, hplace, hm, hn⟩ := hplaces k (lt_of_subscriptPosition hk)
        simp only [hplace, hm, hn, Option.bind_some, Option.bind_eq_bind, Option.pure_def,
          RowMajor.cell_nested]

theorem Shows.write_eq (h : t.Shows p) (i : Nat) : t.write i = (p.write i).map fun _ => t := by
  rw [write, Matrices.write]
  rcases h.cases_getElem? i with ⟨he, hentry⟩ | ⟨e, entry, he, hentry, hholds⟩
  · rw [he, hentry]
    rfl
  · rw [he, hentry]
    simp only [hholds.name_eq, Except.map]

/-- A name leads to no entry, or to one that holds what the entry of the other store has. -/
theorem Shows.cases_indexOf? (h : t.Shows p) (hcoherent : t.Coherent) (name : String) :
    (t.indexOf? name = none ∧ p.indexOf? name = none) ∨
    ∃ i e entry, t.indexOf? name = some i ∧ p.indexOf? name = some i ∧ t.entries[i]? = some e ∧
      p.entries[i]? = some entry ∧ t.Holds e entry := by
  cases hi : t.indexOf? name with
  | none => exact .inl ⟨rfl, (h.index name).symm.trans hi⟩
  | some i =>
    obtain ⟨e, he, -⟩ := (hcoherent.index name i).mp hi
    rcases h.cases_getElem? i with ⟨hnone, -⟩ | ⟨e, entry, he, hentry, hholds⟩
    · cases hnone.symm.trans he
    · exact .inr ⟨i, e, entry, rfl, (h.index name).symm.trans hi, he, hentry, hholds⟩

theorem Shows.matrix?_eq (h : t.Shows p) (hcoherent : t.Coherent) (name : String) :
    (t.matrix? name).map (Option.map RowMajor.nested) = some (p.matrix? name) := by
  rw [matrix?, Matrices.matrix?, Matrices.entry?]
  rcases h.cases_indexOf? hcoherent name with ⟨hi, hi'⟩ | ⟨i, e, entry, hi, hi', he, hentry, hholds⟩
  · rw [hi, hi']
    rfl
  · simp only [hi, hi', he, hentry, Option.bind_some, Option.bind_eq_bind]
    rcases hholds.single_or_group with ⟨place, m, hsingle, hplaces, hm, hn, -⟩ | ⟨ms, hgroup, hnone, -⟩
    · simp only [hsingle, hplaces, hn]
      simp [hm]
    · simp only [hgroup, hnone]
      rfl

theorem Shows.readIndex?_eq (h : t.Shows p) (hcoherent : t.Coherent) (name : String) :
    t.readIndex? name = some (p.readIndex? name) := by
  rw [readIndex?, Matrices.readIndex?, Matrices.matrix?, Matrices.entry?]
  rcases h.cases_indexOf? hcoherent name with ⟨hi, hi'⟩ | ⟨i, e, entry, hi, hi', he, hentry, hholds⟩
  · rw [hi, hi']
    rfl
  · simp only [hi, hi', he, hentry, Option.bind_some, Option.map_some]
    rcases hholds.single_or_group with ⟨place, m, hsingle, -, -, hn, -⟩ | ⟨ms, hgroup, hnone, -⟩
    · simp only [hsingle, hn, if_true, Option.isSome_some]
    · simp only [hgroup, hnone, Option.isSome_none]

/-- Whatever has a name can stand in front of a subscript, where a single matrix is refused only when it
is read. -/
theorem Shows.arrayIndex?_eq (h : t.Shows p) (hcoherent : t.Coherent) (name : String) :
    t.arrayIndex? name = some (p.indexOf? name) := by
  rw [arrayIndex?, readIndex?]
  rcases h.cases_indexOf? hcoherent name with ⟨hi, hi'⟩ | ⟨i, e, entry, hi, hi', he, hentry, hholds⟩
  · rw [hi, hi']
  · simp only [hi, hi', he, Option.map_some, Option.bind_some, Option.bind_eq_bind]
    split
    · rfl
    · rfl

theorem Shows.listing (h : t.Shows p) :
    t.entries.map IndexedEntry.listed = p.entries.map Entry.listed := by
  apply Array.toList_inj.mp
  rw [Array.toList_map, Array.toList_map]
  exact List.forall₂_eq_eq_eq ▸ List.forall₂_map_left_iff.mpr
    (List.forall₂_map_right_iff.mpr (h.entries.imp fun _ _ he => he.listed))

theorem Shows.answers (h : t.Shows p) (hcoherent : t.Coherent) : t.Answers p where
  listing := h.listing
  indexOf? := h.index
  matrix? := h.matrix?_eq hcoherent
  readIndex? := h.readIndex?_eq hcoherent
  arrayIndex? := h.arrayIndex?_eq hcoherent
  read := h.read_eq
  readIndexed := h.readIndexed_eq
  write := h.write_eq
  perform a := by
    obtain ⟨u, hperform, -⟩ := h.perform a
    rw [hperform]
    rfl

/-- The answers of `u` about whatever `t` has are those of `t`. -/
structure KeepsAnswers (t u : IndexedMatrices) : Prop where
  grows : t.Grows u
  read : ∀ i < t.entries.size, ∀ trip, u.read i trip = t.read i trip
  readIndexed : ∀ i < t.entries.size, ∀ subscript trip,
    u.readIndexed i subscript trip = t.readIndexed i subscript trip

theorem Shows.keepsAnswers (h : t.Shows p) (hu : u.Shows q) (hgrows : t.Grows u)
    (hkept : p.KeepsAnswers q) : t.KeepsAnswers u := by
  refine ⟨hgrows, fun i hi trip => ?_, fun i hi subscript trip => ?_⟩
  · rw [hu.read_eq, h.read_eq, hkept.read i (h.size_eq ▸ hi)]
  · rw [hu.readIndexed_eq, h.readIndexed_eq, hkept.readIndexed i (h.size_eq ▸ hi)]

end Shows

/-! ### Members by name and by number -/

variable {m : RowMajor} {ms : Array RowMajor} {orientation : Orientation} {c k : Nat}

theorem read_of_entry (he : t.entries[i]? = some e) (hsingle : e.kind.isSingle = true)
    (hplaces : e.places = #[place]) (hm : t.matrices[place]? = some m) (trip : Nat × Nat) :
    t.read i trip =
      some (m.cell (e.orientation.cell trip.1 trip.2).1 (e.orientation.cell trip.1 trip.2).2) := by
  rw [read, he]
  simp only [hsingle, hplaces]
  simp [hm]

theorem readIndexed_of_entry {subscript : Float} (he : t.entries[i]? = some e)
    (hgroup : e.kind.isSingle = false) (hsubscript : Decimal.whole? subscript = some (k + 1))
    (hplace : e.places[k]? = some place) (hm : t.matrices[place]? = some m) (trip : Nat × Nat) :
    t.readIndexed i subscript trip =
      some (m.cell (e.orientation.cell trip.1 trip.2).1 (e.orientation.cell trip.1 trip.2).2) := by
  obtain ⟨hlt, -⟩ := Array.getElem?_eq_some_iff.mp hplace
  rw [readIndexed, he]
  simp only [hgroup, subscriptPosition_of_lt hsubscript hlt, hplace, hm, Bool.false_eq_true, if_false,
    Option.bind_some, Option.bind_eq_bind, Option.pure_def]

end IndexedMatrices

end ChoiceModel.Store
