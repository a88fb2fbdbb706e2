import ChoiceModel.Model.Order

/-! The order of formulas. The search may find it in any way; what is proved of the search is that it
lists every name once and none that reads itself, and the check afterwards tells the rest. -/

namespace ChoiceModel.Model

/-- What a search does that enters some fresh names: it finishes them and the names on its stack,
each once, and enters no name that follows itself. -/
structure Visited (next : String → List String) (fresh stack finished fresh' finished' : List String) :
    Prop where
  subset : ∀ n ∈ fresh', n ∈ fresh
  nodup_fresh : fresh'.Nodup
  nodup : finished'.Nodup
  mem_iff : ∀ n, n ∈ finished' ↔ n ∈ finished ∨ n ∈ stack ∨ n ∈ fresh ∧ n ∉ fresh'
  entered : ∀ n ∈ stack, n ∉ fresh'
  loopless : ∀ n ∈ fresh, n ∉ fresh' → n ∉ next n

variable {next : String → List String}

theorem Visited.enter {fresh rest finished fresh' finished' : List String} {name : String}
    (hloop : name ∉ next name)
    (h : Visited next (fresh.erase name)
      (((next name).filter (fresh.erase name).contains).reverse ++ name :: rest) finished fresh'
      finished') :
    Visited next fresh (name :: rest) finished fresh' finished' := by
  have hstack : ∀ n ∈ name :: rest, n ∉ fresh' := fun n hn =>
    h.entered n (List.mem_append_right _ hn)
  refine ⟨fun n hn => List.mem_of_mem_erase (h.subset n hn), h.nodup_fresh, h.nodup, fun n => ?_,
    hstack, fun n hn hn' => ?_⟩
  · rw [h.mem_iff n]
    constructor
    · rintro (hn | hn | ⟨hn, hn'⟩)
      · exact .inl hn
      · rcases List.mem_append.mp hn with hfollowing | hn
        · have hmem := (List.mem_filter.mp (List.mem_reverse.mp hfollowing)).2
          have hmem : n ∈ fresh.erase name := List.contains_iff_mem.mp hmem
          exact .inr (.inr ⟨List.mem_of_mem_erase hmem,
            h.entered n (List.mem_append_left _ hfollowing)⟩)
        · exact .inr (.inl hn)
      · exact .inr (.inr ⟨List.mem_of_mem_erase hn, hn'⟩)
    · rintro (hn | hn | ⟨hn, hn'⟩)
      · exact .inl hn
      · exact .inr (.inl (List.mem_append_right _ hn))
      · by_cases heq : n = name
        · subst heq
          exact .inr (.inl (List.mem_append_right _ List.mem_cons_self))
        · exact .inr (.inr ⟨(List.mem_erase_of_ne heq).mpr hn, hn'⟩)
  -- a name is looked at once, when it is entered
  · by_cases heq : n = name
    · subst heq
      exact hloop
    · exact h.loopless n ((List.mem_erase_of_ne heq).mpr hn) hn'

theorem Visited.finish {fresh rest finished fresh' finished' : List String} {name : String}
    (hname : name ∉ fresh)
    (h : Visited next fresh rest (if finished.contains name then finished else name :: finished)
      fresh' finished') :
    Visited next fresh (name :: rest) finished fresh' finished' := by
  have hmem : ∀ n, n ∈ (if finished.contains name then finished else name :: finished) ↔
      n = name ∨ n ∈ finished := by
    intro n
    split
    · rename_i hcontains
      have hcontains := List.contains_iff_mem.mp hcontains
      refine ⟨.inr, fun hn => hn.elim (fun heq => ?_) id⟩
      rw [heq]
      exact hcontains
    · exact List.mem_cons
  refine ⟨h.subset, h.nodup_fresh, h.nodup, fun n => ?_, fun n hn => ?_, h.loopless⟩
  · rw [h.mem_iff n, hmem n, List.mem_cons, or_comm (a := n = name), or_assoc, or_assoc]
  · rcases List.mem_cons.mp hn with rfl | hn
    · exact fun hn' => hname (h.subset n hn')
    · exact h.entered n hn

theorem visit_eq_ok {fresh stack finished fresh' finished' : List String}
    (h : visit next fresh stack finished = .ok (fresh', finished')) (hfresh : fresh.Nodup)
    (hfinished : finished.Nodup) : Visited next fresh stack finished fresh' finished' := by
  induction fresh, stack, finished using visit.induct next with
  | case1 fresh finished =>
    rw [visit] at h
    cases h
    refine ⟨fun _ hn => hn, hfresh, hfinished, fun n => ?_, fun _ hn => (nomatch hn),
      fun n hn hn' => (hn' hn).elim⟩
    simp
  | case2 fresh finished name rest hcontains following hloop =>
    rw [visit, dif_pos hcontains] at h
    simp only [following] at hloop
    simp only [hloop, if_true] at h
    cases h
  | case3 fresh finished name rest hcontains fresh' following hloop ih =>
    rw [visit, dif_pos hcontains] at h
    simp only [following] at hloop
    simp only [hloop] at h
    refine .enter (fun hmem => hloop (List.contains_iff_mem.mpr hmem)) ?_
    exact ih h (hfresh.erase name) hfinished
  | case4 fresh finished name rest hcontains ih =>
    rw [visit, dif_neg hcontains] at h
    refine .finish (fun hmem => hcontains (List.contains_iff_mem.mpr hmem)) (ih h hfresh ?_)
    split
    · exact hfinished
    · rename_i hnot
      exact List.nodup_cons.mpr ⟨fun hmem => hnot (List.contains_iff_mem.mpr hmem), hfinished⟩

theorem visitAll_eq_ok {fresh finished names order : List String}
    (h : visitAll next fresh finished names = .ok order) (hfresh : fresh.Nodup)
    (hfinished : finished.Nodup) :
    ∃ fresh', Visited next fresh [] finished fresh' order ∧ ∀ n ∈ names, n ∉ fresh' := by
  induction names generalizing fresh finished with
  | nil =>
    rw [visitAll] at h
    cases h
    refine ⟨fresh, ⟨fun _ hn => hn, hfresh, hfinished, fun n => ?_, fun _ hn => (nomatch hn),
      fun n hn hn' => (hn' hn).elim⟩, fun _ hn => (nomatch hn)⟩
    simp
  | cons name names ih =>
    rw [visitAll] at h
    split at h
    · rename_i hcontains
      have hname : name ∈ fresh := List.contains_iff_mem.mp hcontains
      split at h
      · rename_i fresh₁ finished₁ hvisit
        have hfirst := visit_eq_ok hvisit hfresh hfinished
        obtain ⟨fresh', hrest, hnames⟩ := ih h hfirst.nodup_fresh hfirst.nodup
        have hsub : ∀ n ∈ fresh', n ∈ fresh₁ := hrest.subset
        refine ⟨fresh', ⟨fun n hn => hfirst.subset n (hsub n hn), hrest.nodup_fresh, hrest.nodup,
          fun n => ?_, fun _ hn => (nomatch hn), fun n hn hn' => ?_⟩, fun n hn => ?_⟩
        · have hentered := hfirst.entered name List.mem_cons_self
          rw [hrest.mem_iff, hfirst.mem_iff]
          constructor
          · rintro ((hn | hn | ⟨hn, hn'⟩) | hn | ⟨hn, hn'⟩)
            · exact .inl hn
            · cases List.mem_singleton.mp hn
              exact .inr (.inr ⟨hname, fun hmem => hentered (hsub _ hmem)⟩)
            · exact .inr (.inr ⟨hn, fun hmem => hn' (hsub n hmem)⟩)
            · cases hn
            · exact .inr (.inr ⟨hfirst.subset n hn, hn'⟩)
          · rintro (hn | hn | ⟨hn, hn'⟩)
            · exact .inl (.inl hn)
            · cases hn
            · by_cases hmem : n ∈ fresh₁
              · exact .inr (.inr ⟨hmem, hn'⟩)
              · exact .inl (.inr (.inr ⟨hn, hmem⟩))
        · by_cases hmem : n ∈ fresh₁
          · exact hrest.loopless n hmem hn'
          · exact hfirst.loopless n hn hmem
        · rcases List.mem_cons.mp hn with rfl | hn
          · exact fun hmem => hfirst.entered n List.mem_cons_self (hsub n hmem)
          · exact hnames n hn
      · cases h
    · rename_i hcontains
      obtain ⟨fresh', hrest, hnames⟩ := ih h hfresh hfinished
      refine ⟨fresh', hrest, fun n hn => ?_⟩
      rcases List.mem_cons.mp hn with rfl | hn
      · exact fun hmem => hcontains (List.contains_iff_mem.mpr (hrest.subset n hmem))
      · exact hnames n hn

theorem misplaced?_eq_none {reads : Reads} {placed order before after : List String} {name : String}
    (h : misplaced? reads placed order = none) (horder : order = before ++ name :: after) :
    ∀ r ∈ readBy reads name, r = name ∨ r ∈ before ∨ r ∈ placed := by
  induction before generalizing placed order with
  | nil =>
    subst horder
    rw [List.nil_append, misplaced?] at h
    split at h
    · cases h
    · rename_i hfind
      intro r hr
      have hr := List.find?_eq_none.mp hfind r hr
      simp only [Bool.and_eq_true, bne_iff_ne, ne_eq, Bool.not_eq_true', not_and,
        Bool.not_eq_false] at hr
      by_cases heq : r = name
      · exact .inl heq
      · exact .inr (.inr (List.contains_iff_mem.mp (hr heq)))
  | cons first before ih =>
    subst horder
    rw [List.cons_append, misplaced?] at h
    split at h
    · cases h
    · intro r hr
      rcases ih h rfl r hr with heq | hr | hr
      · exact .inl heq
      · exact .inr (.inl (List.mem_cons_of_mem _ hr))
      · rcases List.mem_cons.mp hr with rfl | hr
        · exact .inr (.inl List.mem_cons_self)
        · exact .inr (.inr hr)

theorem mem_readers {reads : Reads} {f name : String} {names : List String}
    (hmem : (f, names) ∈ reads) (hname : name ∈ names) : f ∈ readers reads name := by
  refine List.mem_reverse.mpr (List.mem_flatMap.mpr ⟨(f, names), hmem, ?_⟩)
  exact List.mem_map.mpr ⟨name, List.mem_filter.mpr ⟨hname, beq_self_eq_true name⟩, rfl⟩

theorem mem_of_lookup_eq_some {α : Type} {pairs : List (String × α)} {key : String} {a : α}
    (h : pairs.lookup key = some a) : (key, a) ∈ pairs := by
  induction pairs with
  | nil => cases h
  | cons pair pairs ih =>
    rw [List.lookup_cons] at h
    split at h
    · rename_i heq
      cases h
      rw [beq_iff_eq.mp heq]
      exact List.mem_cons_self
    · exact List.mem_cons_of_mem _ (ih h)

/-- An order lists every name once, and in front of each one the names that it reads. -/
theorem sortReads_eq_ok {reads : Reads} {order : List String} (h : sortReads reads = .ok order)
    (hnames : (reads.map Prod.fst).Nodup) :
    order.Nodup ∧ (∀ n, n ∈ order ↔ n ∈ reads.map Prod.fst) ∧
      ∀ before name after, order = before ++ name :: after → ∀ r ∈ readBy reads name, r ∈ before := by
  unfold sortReads at h
  simp only at h
  split at h
  · cases h
  · rename_i order' hvisit
    split at h
    · cases h
    · rename_i hplaced
      cases h
      obtain ⟨fresh', hvisited, hempty⟩ := visitAll_eq_ok hvisit hnames List.nodup_nil
      have hmem : ∀ n, n ∈ order ↔ n ∈ reads.map Prod.fst := by
        intro n
        rw [hvisited.mem_iff]
        refine ⟨?_, fun hn => .inr (.inr ⟨hn, hempty n hn⟩)⟩
        rintro (hn | hn | ⟨hn, -⟩)
        · cases hn
        · cases hn
        · exact hn
      refine ⟨hvisited.nodup, hmem, fun before name after horder r hr => ?_⟩
      rcases misplaced?_eq_none hplaced horder r hr with heq | hr' | hr'
      -- a formula that reads itself passes the check on the order; the search has refused it
      · subst heq
        have hname : r ∈ reads.map Prod.fst := by
          rw [← hmem, horder]
          exact List.mem_append_right _ List.mem_cons_self
        rw [readBy] at hr
        cases hlookup : reads.lookup r with
        | none =>
          rw [hlookup] at hr
          cases hr
        | some names =>
          rw [hlookup] at hr
          have hreader := mem_readers (mem_of_lookup_eq_some hlookup) hr
          exact (hvisited.loopless r hname (hempty r hname) hreader).elim
      · exact hr'
      · cases hr'

end ChoiceModel.Model
