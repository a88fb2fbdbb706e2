import ChoiceModel.Model.Load
import ChoiceModel.Proofs.Store.Variables

/-! What bindings point at. A store keeps the place of every name whatever is added to it or written,
and a binding is only made to a place that its store has; so none is ever left without one. -/

namespace ChoiceModel.Store

open Expression (EvalError)
open Model (Defect)

theorem Scalars.allocate_keepsNames (t : Scalars) (name : String) :
    KeepsNames t.entries (t.allocate name).2.entries := by
  unfold allocate
  split
  · exact .refl _
  · exact .push _ _

theorem Scalars.setAt_keepsNames (t : Scalars) (i : Nat) (x : Float) :
    KeepsNames t.entries (t.setAt i x).entries := .modify _ _ _

theorem Scalars.set_keepsNames (t : Scalars) (name : String) (x : Float) :
    KeepsNames t.entries (t.set name x).2.entries :=
  (t.allocate_keepsNames name).trans (setAt_keepsNames _ _ x)

theorem DataTable.addColumn_keepsNames {t t' : DataTable} {name : String} {values : Array Float}
    {i : Nat} (h : t.addColumn name values = .ok (i, t')) : KeepsNames t.columns t'.columns := by
  unfold addColumn at h
  split at h
  · cases h
  · split at h
    · cases h
      exact .modify _ _ _
    · cases h
      exact .push _ _

theorem DataTable.indexOf?_write {t t' : DataTable} {column row : Nat} {x : Float}
    (h : t.write column row x = .ok t') (name : String) : t'.indexOf? name = t.indexOf? name := by
  unfold write at h
  split at h
  · cases h
  · rename_i values hcolumn
    split at h
    · cases h
      exact findIdx?_of_map_fst (map_fst_setIfInBounds hcolumn _) name
    · cases h

theorem DataTable.write_keepsNames {t t' : DataTable} {column row : Nat} {x : Float}
    (h : t.write column row x = .ok t') : KeepsNames t.columns t'.columns :=
  fun name _ hi => (indexOf?_write h name).trans hi

theorem Attributes.register_keepsNames {ο : Type} (t : Attributes ο) (name : String)
    (f : Accessor ο) : KeepsNames t.entries (t.register name f).2.entries := by
  unfold register
  split
  · exact .modify _ _ _
  · exact .push _ _

namespace Matrices

variable {t u w : Matrices}

/-- Every entry of `t` is an entry of `u` in the same place. -/
def KeepsEntries (t u : Matrices) : Prop :=
  ∀ (i : Nat) e, t.entries[i]? = some e → u.entries[i]? = some e

theorem KeepsEntries.trans (h : KeepsEntries t u) (h' : KeepsEntries u w) : KeepsEntries t w :=
  fun i e he => h' i e (h i e he)

theorem add_keepsEntries (t : Matrices) (entry : Entry) : KeepsEntries t (t.add entry).2 := by
  unfold add
  split
  · exact fun _ _ h => h
  · intro i e he
    obtain ⟨hlt, -⟩ := Array.getElem?_eq_some_iff.mp he
    rw [Array.getElem?_push, if_neg (Nat.ne_of_lt hlt)]
    exact he

theorem addMembers_keepsEntries (orientation : Orientation) (collection number : Nat)
    (members : List Matrix) (t : Matrices) :
    KeepsEntries t (addMembers orientation collection number members t).2 := by
  induction members generalizing number t with
  | nil => exact fun _ _ h => h
  | cons m members ih =>
    have hfirst := t.add_keepsEntries ⟨m.name, .member collection number m, orientation⟩
    rw [addMembers]
    rcases hadd : t.add ⟨m.name, .member collection number m, orientation⟩ with ⟨r, u⟩
    rw [hadd] at hfirst
    cases r with
    | error e => exact hfirst
    | ok i => exact hfirst.trans (ih _ u)

theorem addCollection_keepsEntries (t : Matrices) (name : String) (members : Array Matrix)
    (orientation : Orientation) : KeepsEntries t (t.addCollection name members orientation).2 := by
  have hfirst := t.add_keepsEntries ⟨name, .collection members, orientation⟩
  rw [addCollection]
  rcases hadd : t.add ⟨name, .collection members, orientation⟩ with ⟨r, u⟩
  rw [hadd] at hfirst
  cases r with
  | error e => exact hfirst
  | ok collection =>
    have hrest := addMembers_keepsEntries orientation collection 1 members.toList u
    simp only
    rcases hmembers : addMembers orientation collection 1 members.toList u with ⟨r', w⟩
    rw [hmembers] at hrest
    cases r' with
    | error e => exact hfirst.trans hrest
    | ok _ => exact hfirst.trans hrest

end Matrices

namespace Variables

variable {ο : Type} {u v w : Variables ο} {name : String} {i : Nat}

/-- The store that a binding points into has the place that it points at. -/
def Supports (v : Variables ο) (b : Binding) : Prop :=
  match b.source with
  | .scalar slot => v.scalars.indexOf? b.name = some slot
  | .zone column _ => v.zones.indexOf? (zoneColumn b.name).1 = some column
  | .household column => v.households.indexOf? b.name = some column
  | .alternative column => v.alternatives.indexOf? b.name = some column
  | .matrix entry _ | .member entry _ _ =>
    ∃ e, v.matrices.entries[entry]? = some e ∧ e.content.single?.isSome = true
  | .array entry _ | .collection entry _ =>
    ∃ e, v.matrices.entries[entry]? = some e ∧ e.content.members?.isSome = true
  | .attribute slot _ => ∃ key, v.attributes.indexOf? key = some slot
  | .loop _ => True

def Grounded (v : Variables ο) : Prop := ∀ (i : Nat) b, v.bindings[i]? = some b → v.Supports b

/-- No name has been resolved yet among the data of a model. -/
theorem load_bindings {m : Model} (h : m.load = .ok v) : v.bindings = #[] := by
  unfold Model.load at h
  obtain ⟨zones, -, h⟩ := exists_of_bind_eq_ok h
  obtain ⟨households, -, h⟩ := exists_of_bind_eq_ok h
  obtain ⟨alternatives, -, h⟩ := exists_of_bind_eq_ok h
  obtain ⟨matrices, -, h⟩ := exists_of_bind_eq_ok h
  cases h
  rfl

theorem grounded_of_bindings_eq_empty (h : v.bindings = #[]) : v.Grounded := by
  intro i b hb
  rw [h] at hb
  cases hb

/-- The stores of `w` have whatever those of `v` have, in its place. -/
structure KeepsStores (v w : Variables ο) : Prop where
  scalars : KeepsNames v.scalars.entries w.scalars.entries
  zones : KeepsNames v.zones.columns w.zones.columns
  households : KeepsNames v.households.columns w.households.columns
  alternatives : KeepsNames v.alternatives.columns w.alternatives.columns
  matrices : Matrices.KeepsEntries v.matrices w.matrices
  attributes : KeepsNames v.attributes.entries w.attributes.entries

theorem KeepsStores.refl (v : Variables ο) : v.KeepsStores v :=
  ⟨.refl _, .refl _, .refl _, .refl _, fun _ _ h => h, .refl _⟩

theorem KeepsStores.trans (h : u.KeepsStores v) (h' : v.KeepsStores w) : u.KeepsStores w :=
  ⟨h.scalars.trans h'.scalars, h.zones.trans h'.zones, h.households.trans h'.households,
    h.alternatives.trans h'.alternatives, h.matrices.trans h'.matrices,
    h.attributes.trans h'.attributes⟩

theorem Supports.mono {b : Binding} (h : v.Supports b) (hvw : v.KeepsStores w) : w.Supports b := by
  obtain ⟨name, source⟩ := b
  cases source with
  | scalar slot => exact hvw.scalars _ _ h
  | zone column place => exact hvw.zones _ _ h
  | household column => exact hvw.households _ _ h
  | alternative column => exact hvw.alternatives _ _ h
  | matrix entry orientation =>
    obtain ⟨e, he, hsingle⟩ := h
    exact ⟨e, hvw.matrices _ _ he, hsingle⟩
  | member entry orientation number =>
    obtain ⟨e, he, hsingle⟩ := h
    exact ⟨e, hvw.matrices _ _ he, hsingle⟩
  | array entry orientation =>
    obtain ⟨e, he, hmembers⟩ := h
    exact ⟨e, hvw.matrices _ _ he, hmembers⟩
  | collection entry orientation =>
    obtain ⟨e, he, hmembers⟩ := h
    exact ⟨e, hvw.matrices _ _ he, hmembers⟩
  | «attribute» slot fixed =>
    obtain ⟨key, hkey⟩ := h
    exact ⟨key, hvw.attributes _ _ hkey⟩
  | loop l => trivial

/-- What becomes of variables in the course of time: bindings are added, stores grow, and every
binding keeps pointing at a place that exists. -/
structure Grows (v w : Variables ο) : Prop where
  bindings : ∀ (i : Nat) b, v.bindings[i]? = some b → w.bindings[i]? = some b
  stores : v.KeepsStores w
  grounded : v.Grounded → w.Grounded

namespace Grows

theorem refl (v : Variables ο) : v.Grows v := ⟨fun _ _ h => h, .refl v, id⟩

theorem trans (h : u.Grows v) (h' : v.Grows w) : u.Grows w :=
  ⟨fun i b hb => h'.bindings i b (h.bindings i b hb), h.stores.trans h'.stores,
    fun hu => h'.grounded (h.grounded hu)⟩

theorem of_stores (hbindings : w.bindings = v.bindings) (h : v.KeepsStores w) : v.Grows w := by
  refine ⟨fun i b hb => ?_, h, fun hv i b hb => ?_⟩
  · rw [hbindings]
    exact hb
  · rw [hbindings] at hb
    exact (hv i b hb).mono h

theorem bind {b : Binding} (hb : v.Supports b) : v.Grows (v.bind b).2 := by
  refine ⟨fun _ _ => getElem?_bind, { KeepsStores.refl v with }, fun hv i b' hb' => ?_⟩
  rw [Variables.bind, Array.getElem?_push] at hb'
  split at hb'
  · cases hb'
    exact hb
  · exact hv i b' hb'

end Grows

theorem supports_matrixSource? {source : Source} (h : v.matrixSource? name = some source) :
    v.Supports ⟨name, source⟩ := by
  unfold matrixSource? Matrices.entry? at h
  split at h
  · rename_i entry e hentry he
    rw [hentry] at he
    have he : v.matrices.entries[entry]? = some e := he
    split at h
    · rename_i m hcontent
      cases h
      exact ⟨e, he, by rw [hcontent]; rfl⟩
    · rename_i c number m hcontent
      cases h
      exact ⟨e, he, by rw [hcontent]; rfl⟩
    · rename_i members hcontent
      cases h
      exact ⟨e, he, by rw [hcontent]; rfl⟩
    · rename_i members hcontent
      cases h
      exact ⟨e, he, by rw [hcontent]; rfl⟩
  · cases h

theorem supports_source? {source : Source} (h : v.source? name = some source) :
    v.Supports ⟨name, source⟩ ∧ source.isGroup = false := by
  unfold source? at h
  split at h
  · obtain ⟨l, -, rfl⟩ := Option.map_eq_some_iff.mp h
    exact ⟨trivial, rfl⟩
  · obtain ⟨slot, hslot, rfl⟩ := Option.map_eq_some_iff.mp h
    exact ⟨⟨_, hslot⟩, rfl⟩
  · obtain ⟨slot, hslot, rfl⟩ := Option.map_eq_some_iff.mp h
    exact ⟨⟨_, hslot⟩, rfl⟩
  · simp only [Option.orElse_eq_orElse, Option.orElse_eq_or, Option.or_eq_some_iff,
      Option.map_eq_some_iff, Option.map_eq_none_iff] at h
    obtain ⟨slot, hslot, rfl⟩ | ⟨-, h⟩ := h
    · exact ⟨hslot, rfl⟩
    · obtain ⟨column, hcolumn, rfl⟩ | ⟨-, h⟩ := h
      · exact ⟨hcolumn, rfl⟩
      · obtain ⟨column, hcolumn, rfl⟩ | ⟨-, h⟩ := h
        · exact ⟨hcolumn, rfl⟩
        · obtain ⟨column, hcolumn, rfl⟩ | ⟨-, h⟩ := h
          · exact ⟨hcolumn, rfl⟩
          · obtain ⟨hsource, hgroup⟩ := Option.filter_eq_some_iff.mp h
            exact ⟨supports_matrixSource? hsource, by simpa using hgroup⟩

theorem resolveRead_grows (name : String) (v : Variables ο) : v.Grows (resolveRead name v).2 := by
  unfold resolveRead
  split
  · exact .refl v
  · split
    · rename_i source hsource
      exact .bind (supports_source? hsource).1
    · exact .refl v

theorem resolveArray_grows (name : String) (v : Variables ο) : v.Grows (resolveArray name v).2 := by
  unfold resolveArray
  split
  · exact .refl v
  · split
    · rename_i source hsource
      exact .bind (supports_matrixSource? (Option.filter_eq_some_iff.mp hsource).1)
    · exact resolveRead_grows name v

theorem resolveAssign_grows (name : String) (v : Variables ο) :
    v.Grows (resolveAssign name v).2 := by
  have hread := resolveRead_grows name v
  unfold resolveAssign
  split
  · rename_i heq
    rw [heq] at hread
    exact hread
  · rename_i w heq
    rw [heq] at hread
    split
    · have hkeeps := w.scalars.allocate_keepsNames name
      have hindex := w.scalars.indexOf?_allocate name
      rcases hallocate : w.scalars.allocate name with ⟨slot, scalars⟩
      rw [hallocate] at hkeeps hindex
      have hstores : w.Grows { w with scalars } :=
        .of_stores rfl { KeepsStores.refl w with scalars := hkeeps }
      exact hread.trans (hstores.trans (.bind hindex))
    · exact hread

theorem write_grows {x : Float} {ctx : Context ο} (h : v.write i x ctx = .ok w) : v.Grows w := by
  obtain ⟨name, source, -, hstored⟩ := write_eq_ok h
  have hkept := KeepsStores.refl v
  cases hstored with
  | scalar hwrite =>
    obtain ⟨-, rfl⟩ := Scalars.write_eq_ok hwrite
    exact .of_stores rfl { hkept with scalars := Scalars.setAt_keepsNames _ _ _ }
  | zone _ hwrite => exact .of_stores rfl { hkept with zones := DataTable.write_keepsNames hwrite }
  | household _ hwrite =>
    exact .of_stores rfl { hkept with households := DataTable.write_keepsNames hwrite }
  | alternative _ hwrite =>
    exact .of_stores rfl { hkept with alternatives := DataTable.write_keepsNames hwrite }

end Variables

end ChoiceModel.Store
