import ChoiceModel.Proofs.Store.Grounded

/-! Which source a name selects. Sources come in kinds, each with its own way to be named, and the
first kind that knows a name has it. Looking a name up follows this order. -/

namespace ChoiceModel.Store

/-- The kinds of sources that a name can stand for. -/
inductive Kind where
  | loop
  | attribute
  | scalar
  | zone
  | household
  | alternative
  | matrix
  | group

namespace Kind

/-- The kinds in which a name is looked up for its value. -/
def values : List Kind := [loop, .attribute, scalar, zone, household, alternative, matrix]

/-- The kinds in which the first argument of a lookup is looked up. -/
def arguments : List Kind := group :: values

end Kind

/-- A name that is neither set apart for a loop variable nor for an attribute. -/
def isPlain (name : String) : Bool :=
  !(name.toList.head?.any fun c => c == '$' || c == '@')

/-- What the name of an entry stands for. -/
def Entry.source (e : Entry) (i : Nat) : Source :=
  match e.content with
  | .matrix _ => .matrix i e.orientation
  | .member _ number _ => .member i e.orientation number
  | .array _ => .array i e.orientation
  | .collection _ => .collection i e.orientation

theorem isPlain_iff {name : String} : isPlain name = true ↔
    name.toList.head? ≠ some '$' ∧ name.toList.head? ≠ some '@' := by
  unfold isPlain
  cases name.toList.head? <;> simp

namespace Variables

variable {ο : Type} {v : Variables ο} {name : String}

/-- What a name stands for among the sources of one kind. -/
inductive Denotes (v : Variables ο) : Kind → String → Source → Prop where
  | loop (l : LoopVariable) : Denotes v .loop l.name (.loop l)
  | attribute {key : String} {slot : Nat} : key.toList.head? ≠ some '@' →
    v.attributes.indexOf? key = some slot → Denotes v .attribute ("@" ++ key) (.attribute slot false)
  | fixedAttribute {key : String} {slot : Nat} : v.attributes.indexOf? key = some slot →
    Denotes v .attribute ("@@" ++ key) (.attribute slot true)
  | scalar {name : String} {slot : Nat} : isPlain name = true → v.scalars.indexOf? name = some slot →
    Denotes v .scalar name (.scalar slot)
  | origin {key : String} {column : Nat} : v.zones.indexOf? key = some column →
    Denotes v .zone ("orig." ++ key) (.zone column .origin)
  | destination {key : String} {column : Nat} : v.zones.indexOf? key = some column →
    Denotes v .zone ("dest." ++ key) (.zone column .destination)
  | zone {name : String} {column : Nat} : isPlain name = true →
    (∀ key, name ≠ "orig." ++ key ∧ name ≠ "dest." ++ key) → v.zones.indexOf? name = some column →
    Denotes v .zone name (.zone column .origin)
  | household {name : String} {column : Nat} : isPlain name = true →
    v.households.indexOf? name = some column → Denotes v .household name (.household column)
  | alternative {name : String} {column : Nat} : isPlain name = true →
    v.alternatives.indexOf? name = some column → Denotes v .alternative name (.alternative column)
  | matrix {name : String} {i : Nat} {e : Entry} {m : Matrix} : isPlain name = true →
    v.matrices.indexOf? name = some i → v.matrices.entries[i]? = some e → e.content = .matrix m →
    Denotes v .matrix name (.matrix i e.orientation)
  | member {name : String} {i c number : Nat} {e : Entry} {m : Matrix} : isPlain name = true →
    v.matrices.indexOf? name = some i → v.matrices.entries[i]? = some e →
    e.content = .member c number m → Denotes v .matrix name (.member i e.orientation number)
  | array {name : String} {i : Nat} {e : Entry} {members : Array Matrix} :
    v.matrices.indexOf? name = some i → v.matrices.entries[i]? = some e →
    e.content = .array members → Denotes v .group name (.array i e.orientation)
  | collection {name : String} {i : Nat} {e : Entry} {members : Array Matrix} :
    v.matrices.indexOf? name = some i → v.matrices.entries[i]? = some e →
    e.content = .collection members → Denotes v .group name (.collection i e.orientation)

/-- The source of a name in the first of the kinds that knows it. -/
def Selects (v : Variables ο) (name : String) : List Kind → Source → Prop
  | [], _ => False
  | kind :: order, source => v.Denotes kind name source ∨
      (∀ other, ¬ v.Denotes kind name other) ∧ v.Selects name order source

/-- The lookup of a name in one kind. -/
def among? (v : Variables ο) (name : String) : Kind → Option Source
  | .loop => (LoopVariable.ofName? name).map .loop
  | .attribute =>
    match name.toList with
    | '@' :: '@' :: key => (v.attributes.indexOf? (String.ofList key)).map (.attribute · true)
    | '@' :: key => (v.attributes.indexOf? (String.ofList key)).map (.attribute · false)
    | _ => none
  | .scalar => if isPlain name then (v.scalars.indexOf? name).map .scalar else none
  | .zone =>
    if isPlain name then
      (v.zones.indexOf? (zoneColumn name).1).map (.zone · (zoneColumn name).2)
    else none
  | .household => if isPlain name then (v.households.indexOf? name).map .household else none
  | .alternative => if isPlain name then (v.alternatives.indexOf? name).map .alternative else none
  | .matrix => if isPlain name then (v.matrixSource? name).filter fun s => !s.isGroup else none
  | .group => (v.matrixSource? name).filter Source.isGroup

theorem matrixSource?_eq_some_iff {source : Source} : v.matrixSource? name = some source ↔
    ∃ i e, v.matrices.indexOf? name = some i ∧ v.matrices.entries[i]? = some e ∧
      e.source i = source := by
  unfold matrixSource? Matrices.entry?
  cases hi : v.matrices.indexOf? name with
  | none => simp
  | some i =>
    cases he : v.matrices.entries[i]? with
    | none => simp [he]
    | some e => cases hcontent : e.content <;> simp [he, hcontent, Entry.source]

theorem ofName?_eq_some_iff {l : LoopVariable} :
    LoopVariable.ofName? name = some l ↔ name = l.name := by
  constructor
  · intro h
    exact (beq_iff_eq.mp (List.find?_some (p := fun l => LoopVariable.name l == name) h)).symm
  · rintro rfl
    cases l <;> decide

theorem zoneColumn_origin (key : String) : zoneColumn ("orig." ++ key) = (key, .origin) := by
  have horigin : "orig.".toList.isPrefixOf? ("orig." ++ key).toList = some key.toList :=
    List.isPrefixOf?_eq_some_iff_append_eq.mpr String.toList_append.symm
  simp only [zoneColumn, horigin, String.ofList_toList]

theorem zoneColumn_destination (key : String) :
    zoneColumn ("dest." ++ key) = (key, .destination) := by
  have horigin : "orig.".toList.isPrefixOf? ("dest." ++ key).toList = none := by
    simp [List.isPrefixOf?]
  have hdestination : "dest.".toList.isPrefixOf? ("dest." ++ key).toList = some key.toList :=
    List.isPrefixOf?_eq_some_iff_append_eq.mpr String.toList_append.symm
  simp only [zoneColumn, horigin, hdestination, String.ofList_toList]

theorem zoneColumn_cases (name : String) :
    (∃ key, name = "orig." ++ key) ∨ (∃ key, name = "dest." ++ key) ∨
      (∀ key, name ≠ "orig." ++ key ∧ name ≠ "dest." ++ key) ∧ zoneColumn name = (name, .origin) := by
  by_cases horigin : ∃ key, name = "orig." ++ key
  · exact .inl horigin
  · by_cases hdestination : ∃ key, name = "dest." ++ key
    · exact .inr (.inl hdestination)
    · have hnone : ∀ mark : String, (¬ ∃ key, name = mark ++ key) →
          mark.toList.isPrefixOf? name.toList = none := by
        intro mark hmark
        refine Option.eq_none_iff_forall_ne_some.mpr fun rest hrest => hmark ⟨String.ofList rest, ?_⟩
        refine String.toList_injective ?_
        rw [String.toList_append, String.toList_ofList]
        exact (List.isPrefixOf?_eq_some_iff_append_eq.mp hrest).symm
      refine .inr (.inr ⟨fun key => ⟨fun h => horigin ⟨key, h⟩, fun h => hdestination ⟨key, h⟩⟩, ?_⟩)
      simp only [zoneColumn, hnone _ horigin, hnone _ hdestination]

theorem Denotes.among?_eq_some {kind : Kind} {source : Source} (h : v.Denotes kind name source) :
    v.among? name kind = some source := by
  have hmatrix : ∀ {i e}, v.matrices.indexOf? name = some i → v.matrices.entries[i]? = some e →
      v.matrixSource? name = some (e.source i) :=
    fun hi he => matrixSource?_eq_some_iff.mpr ⟨_, _, hi, he, rfl⟩
  cases h with
  | loop l => rw [among?, ofName?_eq_some_iff.mpr rfl, Option.map_some]
  | @«attribute» key slot hkey hslot =>
    obtain ⟨cs, rfl⟩ : ∃ cs, key = String.ofList cs := ⟨key.toList, String.ofList_toList.symm⟩
    have hletters : ("@" ++ String.ofList cs).toList = '@' :: cs := by
      simp
    rw [String.toList_ofList] at hkey
    rw [among?, hletters]
    split
    · rename_i rest heq
      cases heq
      exact (hkey rfl).elim
    · rename_i heq
      cases heq
      rw [hslot, Option.map_some]
    · rename_i hnone
      exact (hnone cs rfl).elim
  | fixedAttribute hslot => simp [among?, hslot]
  | scalar hplain hslot => simp [among?, hplain, hslot]
  | origin hcolumn => simp [among?, hcolumn, zoneColumn_origin, isPlain]
  | destination hcolumn => simp [among?, hcolumn, zoneColumn_destination, isPlain]
  | zone hplain hkey hcolumn =>
    obtain ⟨key, rfl⟩ | ⟨key, rfl⟩ | ⟨-, hzone⟩ := zoneColumn_cases name
    · exact ((hkey key).1 rfl).elim
    · exact ((hkey key).2 rfl).elim
    · simp [among?, hplain, hzone, hcolumn]
  | household hplain hcolumn => simp [among?, hplain, hcolumn]
  | alternative hplain hcolumn => simp [among?, hplain, hcolumn]
  | matrix hplain hi he hm => simp [among?, hplain, hmatrix hi he, Entry.source, hm, Source.isGroup]
  | member hplain hi he hm => simp [among?, hplain, hmatrix hi he, Entry.source, hm, Source.isGroup]
  | array hi he hm => simp [among?, hmatrix hi he, Entry.source, hm, Source.isGroup]
  | collection hi he hm => simp [among?, hmatrix hi he, Entry.source, hm, Source.isGroup]

theorem denotes_of_among? {kind : Kind} {source : Source} (h : v.among? name kind = some source) :
    v.Denotes kind name source := by
  cases kind with
  | loop =>
    obtain ⟨l, hl, rfl⟩ := Option.map_eq_some_iff.mp h
    cases ofName?_eq_some_iff.mp hl
    exact .loop l
  | «attribute» =>
    rw [among?] at h
    split at h
    · rename_i key hletters
      obtain ⟨slot, hslot, rfl⟩ := Option.map_eq_some_iff.mp h
      have hname : name = "@@" ++ String.ofList key := String.toList_injective (by simp [hletters])
      rw [hname]
      exact .fixedAttribute hslot
    · rename_i key hkey hletters
      obtain ⟨slot, hslot, rfl⟩ := Option.map_eq_some_iff.mp h
      have hname : name = "@" ++ String.ofList key := String.toList_injective (by simp [hletters])
      rw [hname]
      refine .attribute (fun hhead => ?_) hslot
      rw [String.toList_ofList] at hhead
      obtain ⟨rest, rfl⟩ := List.head?_eq_some_iff.mp hhead
      exact hkey rest rfl
    · cases h
  | scalar =>
    rw [among?] at h
    obtain ⟨hplain, h⟩ := Option.ite_none_right_eq_some.mp h
    obtain ⟨slot, hslot, rfl⟩ := Option.map_eq_some_iff.mp h
    exact .scalar hplain hslot
  | zone =>
    rw [among?] at h
    obtain ⟨hplain, h⟩ := Option.ite_none_right_eq_some.mp h
    obtain ⟨column, hcolumn, rfl⟩ := Option.map_eq_some_iff.mp h
    obtain ⟨key, rfl⟩ | ⟨key, rfl⟩ | ⟨hkey, hzone⟩ := zoneColumn_cases name
    · rw [zoneColumn_origin] at hcolumn ⊢
      exact .origin hcolumn
    · rw [zoneColumn_destination] at hcolumn ⊢
      exact .destination hcolumn
    · rw [hzone] at hcolumn ⊢
      exact .zone hplain hkey hcolumn
  | household =>
    rw [among?] at h
    obtain ⟨hplain, h⟩ := Option.ite_none_right_eq_some.mp h
    obtain ⟨column, hcolumn, rfl⟩ := Option.map_eq_some_iff.mp h
    exact .household hplain hcolumn
  | alternative =>
    rw [among?] at h
    obtain ⟨hplain, h⟩ := Option.ite_none_right_eq_some.mp h
    obtain ⟨column, hcolumn, rfl⟩ := Option.map_eq_some_iff.mp h
    exact .alternative hplain hcolumn
  | matrix =>
    rw [among?] at h
    obtain ⟨hplain, h⟩ := Option.ite_none_right_eq_some.mp h
    obtain ⟨h, hgroup⟩ := Option.filter_eq_some_iff.mp h
    obtain ⟨i, e, hi, he, rfl⟩ := matrixSource?_eq_some_iff.mp h
    unfold Entry.source at hgroup ⊢
    split
    · exact .matrix hplain hi he ‹_›
    · exact .member hplain hi he ‹_›
    · simp_all [Source.isGroup]
    · simp_all [Source.isGroup]
  | group =>
    obtain ⟨h, hgroup⟩ := Option.filter_eq_some_iff.mp h
    obtain ⟨i, e, hi, he, rfl⟩ := matrixSource?_eq_some_iff.mp h
    unfold Entry.source at hgroup ⊢
    split
    · simp_all [Source.isGroup]
    · simp_all [Source.isGroup]
    · exact .array hi he ‹_›
    · exact .collection hi he ‹_›

theorem selects_iff (order : List Kind) (source : Source) :
    v.Selects name order source ↔ order.findSome? (v.among? name) = some source := by
  induction order with
  | nil => simp [Selects]
  | cons kind order ih =>
    rw [Selects, ih, List.findSome?_cons]
    cases hkind : v.among? name kind with
    | none =>
      have hnone : ∀ other, ¬ v.Denotes kind name other := by
        intro other hother
        rw [hother.among?_eq_some] at hkind
        cases hkind
      simp [hnone]
    | some found =>
      have hfound := denotes_of_among? hkind
      constructor
      · rintro (h | ⟨h, -⟩)
        · rw [← h.among?_eq_some, hkind]
        · exact (h found hfound).elim
      · rintro ⟨⟩
        exact .inl hfound

theorem Selects.unique {order : List Kind} {source other : Source}
    (h : v.Selects name order source) (h' : v.Selects name order other) : source = other := by
  rw [selects_iff] at h h'
  exact Option.some.inj (h.symm.trans h')

theorem ofName?_eq_none (h : name.toList.head? ≠ some '$') : LoopVariable.ofName? name = none := by
  refine Option.eq_none_iff_forall_ne_some.mpr fun l hl => h ?_
  rw [ofName?_eq_some_iff.mp hl]
  cases l <;> simp [LoopVariable.name]

theorem findSome?_among? (kind : Kind) (order : List Kind) :
    (kind :: order).findSome? (v.among? name) =
      (v.among? name kind).or (order.findSome? (v.among? name)) := by
  rw [List.findSome?_cons]
  cases v.among? name kind <;> rfl

theorem source?_eq_findSome? : v.source? name = Kind.values.findSome? (v.among? name) := by
  simp only [Kind.values, findSome?_among?, List.findSome?_nil]
  unfold source?
  split
  · rename_i cs hcs
    have hplain : isPlain name = false := by simp [isPlain, hcs]
    simp [among?, hplain, hcs]
  · rename_i cs hcs
    have hplain : isPlain name = false := by simp [isPlain, hcs]
    have hloop : LoopVariable.ofName? name = none := ofName?_eq_none (by simp [hcs])
    simp [among?, hplain, hcs, hloop]
  · rename_i cs hother hcs
    have hplain : isPlain name = false := by simp [isPlain, hcs]
    have hloop : LoopVariable.ofName? name = none := ofName?_eq_none (by simp [hcs])
    simp [among?, hplain, hcs, hloop]
  · rename_i hdollar hfixed hattribute
    have hdollar : name.toList.head? ≠ some '$' := by
      intro hhead
      obtain ⟨cs, hcs⟩ := List.head?_eq_some_iff.mp hhead
      exact hdollar cs hcs
    have hattribute : name.toList.head? ≠ some '@' := by
      intro hhead
      obtain ⟨cs, hcs⟩ := List.head?_eq_some_iff.mp hhead
      exact hattribute cs hcs
    have hplain := isPlain_iff.mpr ⟨hdollar, hattribute⟩
    simp [among?, hplain, ofName?_eq_none hdollar]

/-- Looking a name up for its value follows the order of the kinds. -/
theorem source?_eq_some_iff {source : Source} :
    v.source? name = some source ↔ v.Selects name Kind.values source := by
  rw [selects_iff, source?_eq_findSome?]

end Variables

end ChoiceModel.Store
