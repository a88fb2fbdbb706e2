import ChoiceModel.Proofs.Store.Grounded
import Mathlib.Data.List.Permutation

/-! What an addition to a store of matrices leaves behind. It registers its entries one by one, up to the
first whose name is taken, and those in front of that one stay. So a refusal goes unnoticed exactly when
the name of the addition itself was taken, and what the store had answers as before in any case. -/

namespace ChoiceModel.Store

open Model (Defect)

/-- What a listing of a store shows of the content of an entry. -/
inductive EntryKind where
  | matrix
  | member (collection number : Nat)
  | array
  | collection
deriving DecidableEq

def Content.kind : Content → EntryKind
  | .matrix _ => .matrix
  | .member c k _ => .member c k
  | .array _ => .array
  | .collection _ => .collection

def Entry.listed (e : Entry) : String × EntryKind × Orientation := (e.name, e.content.kind, e.orientation)

inductive Addition where
  | matrix (m : Matrix) (orientation : Orientation)
  | array (name : String) (members : Array Matrix) (orientation : Orientation)
  | collection (name : String) (members : Array Matrix) (orientation : Orientation)

namespace Addition

def name : Addition → String
  | matrix m _ => m.name
  | array name _ _ | collection name _ _ => name

def matrices : Addition → List Matrix
  | matrix m _ => [m]
  | array _ members _ | collection _ members _ => members.toList

def isCollection : Addition → Bool
  | matrix .. | array .. => false
  | collection .. => true

end Addition

/-- The entries for the members of a collection, counted from `number`. -/
def memberEntries (orientation : Orientation) (collection number : Nat) : List Matrix → List Entry
  | [] => []
  | m :: rest =>
    ⟨m.name, .member collection number m, orientation⟩ ::
      memberEntries orientation collection (number + 1) rest

/-- The entry that carries the name of an addition. -/
def Addition.first : Addition → Entry
  | matrix m orientation => ⟨m.name, .matrix m, orientation⟩
  | array name members orientation => ⟨name, .array members, orientation⟩
  | collection name members orientation => ⟨name, .collection members, orientation⟩

/-- The entries that come after the first one, which has the place `place`. -/
def Addition.others (place : Nat) : Addition → List Entry
  | matrix .. | array .. => []
  | collection _ members orientation => memberEntries orientation place 1 members.toList

theorem Addition.first_name (a : Addition) : a.first.name = a.name := by cases a <;> rfl

namespace Matrices

variable {t u w : Matrices} {e : Entry} {es rest : List Entry} {name : String} {i : Nat}

def perform (t : Matrices) : Addition → Except Defect Nat × Matrices
  | .matrix m orientation => t.addMatrix m orientation
  | .array name members orientation => t.addArray name members orientation
  | .collection name members orientation => t.addCollection name members orientation

/-- The store after additions, whether they succeed or fail. -/
def performAll (t : Matrices) (additions : List Addition) : Matrices :=
  additions.foldl (fun t a => (t.perform a).2) t

/-- Registering `es` in order takes `t` to `u`, where `rest` is left from the first name that is taken. -/
inductive Registers : List Entry → Matrices → List Entry → Matrices → Prop where
  | done (t : Matrices) : Registers [] t [] t
  | taken {t : Matrices} {e : Entry} {es : List Entry} {i : Nat} (h : t.indexOf? e.name = some i) :
    Registers (e :: es) t (e :: es) t
  | added {t u : Matrices} {e : Entry} {es rest : List Entry} (h : t.indexOf? e.name = none)
    (hrest : Registers es ⟨t.entries.push e⟩ rest u) : Registers (e :: es) t rest u

/-- The answer of an addition that leaves `rest`. -/
def outcome {α : Type} (a : α) : List Entry → Except Defect α
  | [] => .ok a
  | e :: _ => .error (.duplicateMatrix e.name)

theorem add_of_taken (h : t.indexOf? e.name = some i) :
    t.add e = (.error (.duplicateMatrix e.name), t) := by
  rw [add, h]

theorem add_of_free (h : t.indexOf? e.name = none) :
    t.add e = (.ok t.entries.size, ⟨t.entries.push e⟩) := by
  rw [add, h]

theorem add_registers (t : Matrices) (e : Entry) :
    ∃ rest, Registers [e] t rest (t.add e).2 ∧ (t.add e).1 = outcome t.entries.size rest := by
  cases hname : t.indexOf? e.name with
  | some i =>
    rw [add_of_taken hname]
    exact ⟨[e], .taken hname, rfl⟩
  | none =>
    rw [add_of_free hname]
    exact ⟨[], .added hname (.done _), rfl⟩

theorem addMembers_registers (orientation : Orientation) (collection number : Nat)
    (members : List Matrix) (t : Matrices) :
    ∃ rest, Registers (memberEntries orientation collection number members) t rest
        (addMembers orientation collection number members t).2 ∧
      (addMembers orientation collection number members t).1 = outcome () rest := by
  induction members generalizing number t with
  | nil => exact ⟨[], .done t, rfl⟩
  | cons m members ih =>
    rw [addMembers, memberEntries]
    generalize he : (⟨m.name, .member collection number m, orientation⟩ : Entry) = e
    cases hname : t.indexOf? e.name with
    | some i =>
      rw [add_of_taken hname]
      exact ⟨_, .taken hname, rfl⟩
    | none =>
      rw [add_of_free hname]
      obtain ⟨rest, hregisters, houtcome⟩ := ih (number + 1) ⟨t.entries.push e⟩
      exact ⟨rest, .added hname hregisters, houtcome⟩

theorem addCollection_registers (t : Matrices) (name : String) (members : Array Matrix)
    (orientation : Orientation) :
    ∃ rest, Registers (⟨name, .collection members, orientation⟩ ::
          memberEntries orientation t.entries.size 1 members.toList) t rest
        (t.addCollection name members orientation).2 ∧
      (t.addCollection name members orientation).1 = outcome t.entries.size rest := by
  rw [addCollection]
  generalize (⟨name, .collection members, orientation⟩ : Entry) = e
  cases hname : t.indexOf? e.name with
  | some i =>
    rw [add_of_taken hname]
    exact ⟨_, .taken hname, rfl⟩
  | none =>
    rw [add_of_free hname]
    obtain ⟨rest, hregisters, houtcome⟩ :=
      addMembers_registers orientation t.entries.size 1 members.toList ⟨t.entries.push e⟩
    refine ⟨rest, .added hname ?_, ?_⟩
    · simp only
      split <;> rename_i hmembers <;> rw [hmembers] at hregisters <;> exact hregisters
    · simp only
      split <;> rename_i hmembers <;> rw [hmembers] at houtcome <;> cases rest <;> cases houtcome <;>
        rfl

theorem perform_registers (t : Matrices) (a : Addition) :
    ∃ rest, Registers (a.first :: a.others t.entries.size) t rest (t.perform a).2 ∧
      (t.perform a).1 = outcome t.entries.size rest := by
  cases a with
  | matrix m orientation => exact add_registers t _
  | array name members orientation => exact add_registers t _
  | collection name members orientation => exact addCollection_registers t name members orientation

namespace Registers

/-- What is registered is a first part of the entries, and the next one has a name that is taken. -/
theorem exists_added (h : Registers es t rest u) :
    ∃ added, es = added ++ rest ∧ u.entries = t.entries ++ added.toArray ∧
      ∀ e ∈ rest.head?, (u.indexOf? e.name).isSome = true := by
  induction h with
  | done t => exact ⟨[], rfl, by simp, by simp⟩
  | taken h => exact ⟨[], rfl, by simp, by simp [h]⟩
  | @added t u e es rest h hrest ih =>
    obtain ⟨added, rfl, hentries, hnext⟩ := ih
    exact ⟨e :: added, rfl, by simp [hentries], hnext⟩

theorem unique {rest' : List Entry} (h : Registers es t rest u) (h' : Registers es t rest' w) :
    rest = rest' ∧ u = w := by
  induction h with
  | done t =>
    cases h'
    exact ⟨rfl, rfl⟩
  | taken htaken =>
    cases h' with
    | taken _ => exact ⟨rfl, rfl⟩
    | added hfree _ => cases htaken.symm.trans hfree
  | added hfree _ ih =>
    cases h' with
    | taken htaken => cases htaken.symm.trans hfree
    | added _ hrest => exact ih hrest

theorem keepsEntries (h : Registers es t rest u) : KeepsEntries t u := by
  obtain ⟨added, -, hentries, -⟩ := h.exists_added
  intro i e he
  obtain ⟨hlt, -⟩ := Array.getElem?_eq_some_iff.mp he
  rw [hentries, Array.getElem?_append_left hlt]
  exact he

end Registers

/-- The answers of `u` about whatever `t` has are those of `t`. -/
structure KeepsAnswers (t u : Matrices) : Prop where
  entries : KeepsEntries t u
  indexOf? : ∀ name i, t.indexOf? name = some i → u.indexOf? name = some i
  read : ∀ i < t.entries.size, ∀ trip, u.read i trip = t.read i trip
  readIndexed : ∀ i < t.entries.size, ∀ subscript trip,
    u.readIndexed i subscript trip = t.readIndexed i subscript trip

theorem KeepsEntries.indexOf? (h : KeepsEntries t u) (hi : t.indexOf? name = some i) :
    u.indexOf? name = some i := by
  have hkept : ∀ j (hj : j < t.entries.size), u.entries[j]? = some t.entries[j] :=
    fun j hj => h j _ (Array.getElem?_eq_getElem hj)
  obtain ⟨hlt, hname, hbefore⟩ := Array.findIdx?_eq_some_iff_getElem.mp hi
  obtain ⟨hltu, hiu⟩ := Array.getElem?_eq_some_iff.mp (hkept i hlt)
  refine Array.findIdx?_eq_some_iff_getElem.mpr ⟨hltu, by rw [hiu]; exact hname, fun j hj => ?_⟩
  obtain ⟨hltj, hju⟩ := Array.getElem?_eq_some_iff.mp (hkept j (Nat.lt_trans hj hlt))
  rw [hju]
  exact hbefore j hj

theorem KeepsEntries.keepsAnswers (h : KeepsEntries t u) : KeepsAnswers t u := by
  have hkept : ∀ i < t.entries.size, u.entries[i]? = t.entries[i]? := fun i hi => by
    rw [h i _ (Array.getElem?_eq_getElem hi), Array.getElem?_eq_getElem hi]
  refine ⟨h, fun name i hi => h.indexOf? hi, fun i hi trip => ?_, fun i hi subscript trip => ?_⟩
  · rw [Matrices.read, hkept i hi]
    rfl
  · rw [Matrices.readIndexed, hkept i hi]
    rfl

/-- The two stores cannot be told apart by a listing, by the place of a name or by what is read. -/
structure SameAnswers (t u : Matrices) : Prop where
  listing : u.entries.map Entry.listed = t.entries.map Entry.listed
  indexOf? : ∀ name, u.indexOf? name = t.indexOf? name
  read : ∀ i trip, u.read i trip = t.read i trip
  readIndexed : ∀ i subscript trip, u.readIndexed i subscript trip = t.readIndexed i subscript trip

theorem SameAnswers.refl (t : Matrices) : SameAnswers t t :=
  ⟨rfl, fun _ => rfl, fun _ _ => rfl, fun _ _ _ => rfl⟩

theorem SameAnswers.size_eq (h : SameAnswers t u) : u.entries.size = t.entries.size := by
  have hsizes := congrArg Array.size h.listing
  rw [Array.size_map, Array.size_map] at hsizes
  exact hsizes

theorem perform_of_taken {a : Addition} (h : (t.indexOf? a.name).isSome = true) :
    (t.perform a).2 = t := by
  obtain ⟨rest, hregisters, -⟩ := t.perform_registers a
  rw [← a.first_name] at h
  generalize (t.perform a).2 = u at hregisters
  cases hregisters with
  | taken _ => rfl
  | added hfree _ => simp [hfree] at h

theorem size_lt_perform_of_free {a : Addition} (h : t.indexOf? a.name = none) :
    t.entries.size < (t.perform a).2.entries.size := by
  obtain ⟨rest, hregisters, -⟩ := t.perform_registers a
  rw [← a.first_name] at h
  generalize (t.perform a).2 = u at hregisters
  cases hregisters with
  | taken htaken => simp [h] at htaken
  | added _ hrest =>
    obtain ⟨added, -, hentries, -⟩ := hrest.exists_added
    rw [hentries, Array.size_append, Array.size_push]
    omega

/-- A single entry is refused for its own name only. -/
theorem isSome_indexOf?_of_single {a : Addition} {d : Defect} (hsingle : a.isCollection = false)
    (h : (t.perform a).1 = .error d) : (t.indexOf? a.name).isSome = true := by
  obtain ⟨rest, hregisters, houtcome⟩ := t.perform_registers a
  have hothers : a.others t.entries.size = [] := by
    cases a with
    | matrix m orientation => rfl
    | array name members orientation => rfl
    | collection name members orientation => cases hsingle
  rw [hothers] at hregisters
  rw [h] at houtcome
  generalize (t.perform a).2 = u at hregisters
  cases hregisters with
  | taken htaken => rw [← a.first_name, htaken]; rfl
  | added _ hrest =>
    cases hrest
    cases houtcome

/-- A refusal leaves the entries in front of the first whose name is taken, which is seen exactly where
the name of the addition itself was free; and that happens to collections only. -/
theorem sameAnswers_perform_iff {a : Addition} {d : Defect} (h : t.perform a = (.error d, u)) :
    (SameAnswers t u ↔ (t.indexOf? a.name).isSome = true) ∧
    (a.isCollection = false → SameAnswers t u) ∧
    KeepsAnswers t u ∧
    ∃ added e rest, a.first :: a.others t.entries.size = added ++ e :: rest ∧
      u.entries = t.entries ++ added.toArray ∧ (u.indexOf? e.name).isSome = true ∧
      d = .duplicateMatrix e.name := by
  obtain rfl : (t.perform a).2 = u := by rw [h]
  have hsame : (t.indexOf? a.name).isSome = true → SameAnswers t (t.perform a).2 := fun htaken => by
    rw [perform_of_taken htaken]
    exact .refl t
  obtain ⟨left, hregisters, houtcome⟩ := t.perform_registers a
  obtain ⟨added, hes, hentries, hnext⟩ := hregisters.exists_added
  refine ⟨⟨fun hanswers => ?_, hsame⟩, fun hsingle => ?_,
    hregisters.keepsEntries.keepsAnswers, ?_⟩
  · by_contra hfree
    have hgrown := size_lt_perform_of_free (Option.not_isSome_iff_eq_none.mp hfree)
    have hsize := hanswers.size_eq
    omega
  · exact hsame (isSome_indexOf?_of_single hsingle (by rw [h]))
  · rw [h] at houtcome
    cases left with
    | nil => cases houtcome
    | cons e rest =>
      cases houtcome
      exact ⟨added, e, rest, hes, hentries, hnext e rfl, rfl⟩

/-- The matrix `dist` stands in the way of the second member; the collection and the first one stay. -/
theorem sameAnswers_perform_iff_skims :
    ∃ (t u : Matrices) (a : Addition), t = performAll {} [.matrix ⟨"dist", #[#[1.0]]⟩ .byOrigin] ∧
      a = .collection "skims" #[⟨"walk", #[#[2.0]]⟩, ⟨"dist", #[#[3.0]]⟩] .byOrigin ∧
      t.perform a = (.error (.duplicateMatrix "dist"), u) ∧ ¬ SameAnswers t u ∧ KeepsAnswers t u ∧
      u.entries.map Entry.listed = #[("dist", .matrix, .byOrigin), ("skims", .collection, .byOrigin),
        ("walk", .member 1 1, .byOrigin)] := by
  -- The values are never looked at.
  generalize (1.0 : Float) = x, (2.0 : Float) = y, (3.0 : Float) = z
  generalize ht : performAll {} [.matrix ⟨"dist", #[#[x]]⟩ .byOrigin] = t
  generalize ha : Addition.collection "skims" #[⟨"walk", #[#[y]]⟩, ⟨"dist", #[#[z]]⟩] .byOrigin = a
  have hrefused : t.perform a = (.error (.duplicateMatrix "dist"), (t.perform a).2) :=
    Prod.ext (by subst ht ha; cbv) rfl
  obtain ⟨hsame, -, hkept, -⟩ := sameAnswers_perform_iff hrefused
  refine ⟨t, _, a, rfl, rfl, hrefused, fun hanswers => ?_, hkept, by subst ht ha; cbv⟩
  have hfree : t.indexOf? a.name = none := by subst ht ha; cbv
  rw [hsame, hfree] at hanswers
  cases hanswers

/-- A collection with a member of its own name is refused by an empty store, but the name stays. -/
theorem not_sameAnswers_own_name : ¬ ∀ (before : List Addition) (a : Addition) (d : Defect) (u : Matrices),
    (performAll {} before).perform a = (.error d, u) → SameAnswers (performAll {} before) u := by
  intro h
  generalize ha : Addition.collection "skims" #[⟨"skims", #[#[1.0]]⟩] .byOrigin = a
  generalize (1.0 : Float) = x at ha
  have hrefused : (({} : Matrices).perform a).1 = .error (.duplicateMatrix "skims") := by
    subst ha
    cbv
  have hafter : (({} : Matrices).perform a).2.indexOf? "skims" = some 0 := by
    subst ha
    cbv
  have hbefore : ({} : Matrices).indexOf? "skims" = none := by cbv
  have hsame := (h [] a _ _ (Prod.ext hrefused rfl)).indexOf? "skims"
  cases hafter.symm.trans (hsame.trans hbefore)

end Matrices

end ChoiceModel.Store
