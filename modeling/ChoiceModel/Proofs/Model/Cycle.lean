import ChoiceModel.Proofs.Model.Prepared
import Mathlib.Logic.Relation

/-! Formulas have an order exactly when none of them depends on itself. A name that the search has
entered reaches everything that lies above it on the stack; so when it is finished later than a name
that it follows from, the two are on a cycle. -/

namespace ChoiceModel.Model

section Search

variable {next : String → List String} {names : List String}

/-- Whether a name follows from another one in one step or more. -/
def Reaches (next : String → List String) : String → String → Prop :=
  Relation.TransGen fun a b => b ∈ next a

/-- What has been put on a stack since the last time that a name has. -/
def above (name : String) (stack : List String) : List String := stack.takeWhile (· != name)

theorem above_self (name : String) (rest : List String) : above name (name :: rest) = [] :=
  List.takeWhile_cons_of_neg (by simp)

theorem above_cons {name other : String} (h : other ≠ name) (rest : List String) :
    above name (other :: rest) = other :: above name rest :=
  List.takeWhile_cons_of_pos (bne_iff_ne.mpr h)

theorem above_append {name : String} {front : List String} (h : name ∉ front) (rest : List String) :
    above name (front ++ rest) = front ++ above name rest := by
  refine List.takeWhile_append_of_pos fun x hx => bne_iff_ne.mpr ?_
  rintro rfl
  exact h hx

/-- What holds at any time of a depth-first search. A name is open from when it is entered until it is
finished. -/
structure Searching (next : String → List String) (names fresh stack finished : List String) :
    Prop where
  nodup : fresh.Nodup
  known : ∀ n ∈ stack, n ∈ names
  entered : ∀ n ∈ names, n ∉ fresh → n ∈ finished ∨ n ∈ stack
  reaches : ∀ n ∈ names, n ∉ fresh → n ∉ finished → ∀ x ∈ above n stack, Reaches next n x
  pending : ∀ n ∈ names, n ∉ fresh → n ∉ finished → ∀ x ∈ next n, x ∈ fresh → x ∈ above n stack

/-- Whatever follows from a finished name has been finished before it or leads back to it. -/
def Placed (next : String → List String) : List String → Prop
  | [] => True
  | name :: earlier => (∀ n ∈ next name, n ∈ earlier ∨ Reaches next n name) ∧ Placed next earlier

theorem Placed.of_append {before after : List String} (h : Placed next (before ++ after)) :
    Placed next after := by
  induction before with
  | nil => exact h
  | cons n before ih => exact ih h.2

namespace Searching

variable {fresh rest finished : List String} {name : String}

theorem enter (h : Searching next names fresh (name :: rest) finished)
    (hnext : ∀ x ∈ next name, x ∈ names) :
    Searching next names (fresh.erase name)
      (((next name).filter (fresh.erase name).contains).reverse ++ name :: rest) finished := by
  have hpushed : ∀ x, x ∈ ((next name).filter (fresh.erase name).contains).reverse ↔
      x ∈ next name ∧ x ∈ fresh.erase name := by
    intro x
    rw [List.mem_reverse, List.mem_filter, List.contains_iff_mem]
  generalize ((next name).filter (fresh.erase name).contains).reverse = pushed at hpushed
  -- an open name is not fresh, so it lies below everything that is pushed
  have habove : ∀ n ∉ fresh.erase name,
      above n (pushed ++ name :: rest) = pushed ++ above n (name :: rest) := fun n hn =>
    above_append (fun hmem => hn ((hpushed n).mp hmem).2) _
  have hmem : ∀ n, n ≠ name → name ∈ above n (name :: rest) := by
    intro n hne
    rw [above_cons (Ne.symm hne)]
    exact List.mem_cons_self
  have hfresh : ∀ n, n ≠ name → n ∉ fresh.erase name → n ∉ fresh := fun n hne hn hmem =>
    hn ((List.mem_erase_of_ne hne).mpr hmem)
  refine ⟨h.nodup.erase name, fun n hn => ?_, fun n hn hn' => ?_, fun n hn hn' hopen x hx => ?_,
    fun n hn hn' hopen x hx hx' => ?_⟩
  · rcases List.mem_append.mp hn with hn | hn
    · exact hnext n ((hpushed n).mp hn).1
    · exact h.known n hn
  · by_cases hne : n = name
    · subst hne
      exact .inr (List.mem_append_right _ List.mem_cons_self)
    · exact (h.entered n hn (hfresh n hne hn')).imp id (List.mem_append_right _)
  · rw [habove n hn'] at hx
    by_cases hne : n = name
    · subst hne
      rw [above_self, List.append_nil] at hx
      exact .single ((hpushed x).mp hx).1
    · have hreach := h.reaches n hn (hfresh n hne hn') hopen
      rcases List.mem_append.mp hx with hx | hx
      · exact .tail (hreach name (hmem n hne)) ((hpushed x).mp hx).1
      · exact hreach x hx
  · rw [habove n hn']
    by_cases hne : n = name
    · subst hne
      exact List.mem_append_left _ ((hpushed x).mpr ⟨hx, hx'⟩)
    · exact List.mem_append_right _
        (h.pending n hn (hfresh n hne hn') hopen x hx (List.mem_of_mem_erase hx'))

theorem finish (h : Searching next names fresh (name :: rest) finished) (hname : name ∉ fresh)
    {finished' : List String} (hfinished : ∀ n, n ∈ finished' ↔ n = name ∨ n ∈ finished) :
    Searching next names fresh rest finished' := by
  have hopen : ∀ n, n ∉ finished' → n ∉ finished ∧ name ≠ n := fun n hn =>
    ⟨fun hmem => hn ((hfinished n).mpr (.inr hmem)),
      fun heq => hn ((hfinished n).mpr (.inl heq.symm))⟩
  refine ⟨h.nodup, fun n hn => h.known n (List.mem_cons_of_mem _ hn), fun n hn hn' => ?_,
    fun n hn hn' hnot x hx => ?_, fun n hn hn' hnot x hx hx' => ?_⟩
  · rcases h.entered n hn hn' with hmem | hmem
    · exact .inl ((hfinished n).mpr (.inr hmem))
    · exact (List.mem_cons.mp hmem).imp (fun heq => (hfinished n).mpr (.inl heq)) id
  · obtain ⟨hnot, hne⟩ := hopen n hnot
    refine h.reaches n hn hn' hnot x ?_
    rw [above_cons hne]
    exact List.mem_cons_of_mem _ hx
  · obtain ⟨hnot, hne⟩ := hopen n hnot
    have hmem := h.pending n hn hn' hnot x hx hx'
    rw [above_cons hne] at hmem
    refine (List.mem_cons.mp hmem).resolve_left ?_
    rintro rfl
    exact hname hx'

/-- When an open name comes up again, all that follows from it has been entered; what of this is not
finished is open, and reaches the name that lies above it. -/
theorem follows (h : Searching next names fresh (name :: rest) finished)
    (hnext : ∀ x ∈ next name, x ∈ names) (hname : name ∉ fresh) (hopen : name ∉ finished) :
    ∀ n ∈ next name, n ∈ finished ∨ Reaches next n name := by
  intro n hn
  have hfresh : n ∉ fresh := by
    intro hmem
    have hmem := h.pending name (h.known name List.mem_cons_self) hname hopen n hn hmem
    rw [above_self] at hmem
    cases hmem
  by_cases hfinished : n ∈ finished
  · exact .inl hfinished
  · right
    by_cases hne : name = n
    · subst hne
      exact .single hn
    · refine h.reaches n (hnext n hn) hfresh hfinished name ?_
      rw [above_cons hne]
      exact List.mem_cons_self

end Searching

theorem visit_searching (hnext : ∀ n, ∀ x ∈ next n, x ∈ names)
    {fresh stack finished fresh' finished' : List String}
    (h : visit next fresh stack finished = .ok (fresh', finished'))
    (hsearching : Searching next names fresh stack finished) (hplaced : Placed next finished) :
    Searching next names fresh' [] finished' ∧ Placed next finished' := by
  induction fresh, stack, finished using visit.induct next with
  | case1 fresh finished =>
    rw [visit] at h
    cases h
    exact ⟨hsearching, hplaced⟩
  | case2 fresh finished name rest hcontains following hloop =>
    rw [visit, dif_pos hcontains] at h
    simp only [following] at hloop
    simp only [hloop, if_true] at h
    cases h
  | case3 fresh finished name rest hcontains fresh₁ following hloop ih =>
    rw [visit, dif_pos hcontains] at h
    simp only [following] at hloop
    simp only [hloop] at h
    exact ih h (hsearching.enter (hnext name)) hplaced
  | case4 fresh finished name rest hcontains ih =>
    rw [visit, dif_neg hcontains] at h
    have hname : name ∉ fresh := fun hmem => hcontains (List.contains_iff_mem.mpr hmem)
    refine and_imp.mpr (ih h) ?_
    split
    · rename_i hmem
      have hmem := List.contains_iff_mem.mp hmem
      refine ⟨hsearching.finish hname fun n => ⟨.inr, fun hn => hn.elim (fun heq => ?_) id⟩, hplaced⟩
      rw [heq]
      exact hmem
    · rename_i hnot
      have hopen : name ∉ finished := fun hmem => hnot (List.contains_iff_mem.mpr hmem)
      refine ⟨hsearching.finish hname fun n => List.mem_cons, ?_, hplaced⟩
      exact hsearching.follows (hnext name) hname hopen

theorem visit_eq_error {fresh stack finished : List String} {name : String}
    (h : visit next fresh stack finished = .error name) : name ∈ next name := by
  induction fresh, stack, finished using visit.induct next with
  | case1 fresh finished =>
    rw [visit] at h
    cases h
  | case2 fresh finished first rest hcontains following hloop =>
    rw [visit, dif_pos hcontains] at h
    simp only [following] at hloop
    simp only [hloop, if_true] at h
    cases h
    exact List.contains_iff_mem.mp hloop
  | case3 fresh finished first rest hcontains fresh₁ following hloop ih =>
    rw [visit, dif_pos hcontains] at h
    simp only [following] at hloop
    simp only [hloop] at h
    exact ih h
  | case4 fresh finished first rest hcontains ih =>
    rw [visit, dif_neg hcontains] at h
    exact ih h

theorem visitAll_placed (hnext : ∀ n, ∀ x ∈ next n, x ∈ names)
    {fresh finished order todo : List String} (htodo : ∀ n ∈ todo, n ∈ names)
    (h : visitAll next fresh finished todo = .ok order)
    (hsearching : Searching next names fresh [] finished) (hplaced : Placed next finished) :
    Placed next order := by
  induction todo generalizing fresh finished with
  | nil =>
    rw [visitAll] at h
    cases h
    exact hplaced
  | cons name todo ih =>
    have htodo' : ∀ n ∈ todo, n ∈ names := fun n hn => htodo n (List.mem_cons_of_mem _ hn)
    rw [visitAll] at h
    split at h
    · split at h
      · rename_i fresh₁ finished₁ hvisit
        -- no name is open when the search sets out from another one
        have hdone : ∀ n ∈ names, n ∉ fresh → n ∈ finished := fun n hn hn' =>
          (hsearching.entered n hn hn').resolve_right List.not_mem_nil
        have hfirst : Searching next names fresh [name] finished := by
          refine ⟨hsearching.nodup, fun n hn => ?_, fun n hn hn' => .inl (hdone n hn hn'),
            fun n hn hn' hopen => (hopen (hdone n hn hn')).elim,
            fun n hn hn' hopen => (hopen (hdone n hn hn')).elim⟩
          rw [List.mem_singleton.mp hn]
          exact htodo name List.mem_cons_self
        obtain ⟨hsearching₁, hplaced₁⟩ := visit_searching hnext hvisit hfirst hplaced
        exact ih htodo' h hsearching₁ hplaced₁
      · cases h
    · exact ih htodo' h hsearching hplaced

theorem visitAll_eq_error {fresh finished todo : List String} {name : String}
    (h : visitAll next fresh finished todo = .error name) : name ∈ next name := by
  induction todo generalizing fresh finished with
  | nil => cases h
  | cons first todo ih =>
    rw [visitAll] at h
    split at h
    · split at h
      · exact ih h
      · rename_i hvisit
        cases h
        exact visit_eq_error hvisit
    · exact ih h

end Search

section Reads

variable {reads : Reads} {name : String}

theorem mem_readers_iff {f : String} :
    f ∈ readers reads name ↔ ∃ names, (f, names) ∈ reads ∧ name ∈ names := by
  refine ⟨fun h => ?_, fun ⟨names, hmem, hname⟩ => mem_readers hmem hname⟩
  obtain ⟨⟨g, names⟩, hmem, hname⟩ := List.mem_flatMap.mp (List.mem_reverse.mp h)
  obtain ⟨n, hn, rfl⟩ := List.mem_map.mp hname
  obtain ⟨hn, heq⟩ := List.mem_filter.mp hn
  rw [beq_iff_eq.mp heq] at hn
  exact ⟨names, hmem, hn⟩

theorem mem_readers_of_mem_readBy {r : String} (h : r ∈ readBy reads name) :
    name ∈ readers reads r := by
  rw [readBy] at h
  cases hlookup : reads.lookup name with
  | none =>
    rw [hlookup] at h
    cases h
  | some names =>
    rw [hlookup] at h
    exact mem_readers (mem_of_lookup_eq_some hlookup) h

theorem misplaced?_eq_some {placed order : List String} {r : String}
    (h : misplaced? reads placed order = some r) : ∃ before name after,
      order = before ++ name :: after ∧ r ∈ readBy reads name ∧ r ≠ name ∧ r ∉ before ∧
        r ∉ placed := by
  induction order generalizing placed with
  | nil => cases h
  | cons name rest ih =>
    rw [misplaced?] at h
    split at h
    · rename_i r' hfind
      cases h
      have hr := List.find?_some hfind
      simp only [Bool.and_eq_true, bne_iff_ne, ne_eq, Bool.not_eq_true'] at hr
      refine ⟨[], name, rest, rfl, List.mem_of_find?_eq_some hfind, hr.1, List.not_mem_nil, ?_⟩
      exact fun hmem => ne_true_of_eq_false hr.2 (List.contains_iff_mem.mpr hmem)
    · obtain ⟨before, n, after, rfl, hr, hne, hbefore, hplaced⟩ := ih h
      rw [List.mem_cons, not_or] at hplaced
      refine ⟨name :: before, n, after, rfl, hr, hne, ?_, hplaced.2⟩
      rw [List.mem_cons, not_or]
      exact ⟨hplaced.1, hbefore⟩

/-- The name that is reported depends on itself. -/
theorem sortReads_eq_error (hnames : (reads.map Prod.fst).Nodup)
    (hread : ∀ f ∈ reads, ∀ n ∈ f.2, n ∈ reads.map Prod.fst)
    (h : sortReads reads = .error name) : Reaches (readers reads) name name := by
  have hnext : ∀ n, ∀ x ∈ readers reads n, x ∈ reads.map Prod.fst := by
    intro n x hx
    obtain ⟨names, hmem, -⟩ := mem_readers_iff.mp hx
    exact List.mem_map_of_mem hmem
  unfold sortReads at h
  simp only at h
  split at h
  · rename_i hvisit
    cases h
    exact .single (visitAll_eq_error hvisit)
  · rename_i order hvisit
    split at h
    · rename_i r hmisplaced
      cases h
      obtain ⟨before, n, after, rfl, hr, hne, hbefore, -⟩ := misplaced?_eq_some hmisplaced
      have hreader := mem_readers_of_mem_readBy hr
      have hstart : Searching (readers reads) (reads.map Prod.fst) (reads.map Prod.fst) [] [] :=
        ⟨hnames, fun _ hn => (nomatch hn), fun _ hn hn' => (hn' hn).elim,
          fun _ hn hn' => (hn' hn).elim, fun _ hn hn' => (hn' hn).elim⟩
      have hplaced := visitAll_placed hnext (fun _ hn => hn) hvisit hstart trivial
      obtain ⟨fresh', hvisited, hempty⟩ := visitAll_eq_ok hvisit hnames List.nodup_nil
      -- the name comes behind the one that reads it, which was finished after it and not before
      have hmem : name ∈ before ++ n :: after := by
        obtain ⟨names, hmem, hname⟩ := mem_readers_iff.mp hreader
        have hname := hread _ hmem name hname
        exact (hvisited.mem_iff name).mpr (.inr (.inr ⟨hname, hempty name hname⟩))
      obtain ⟨later, earlier, rfl⟩ : ∃ later earlier, after = later ++ name :: earlier := by
        refine List.append_of_mem ?_
        exact (List.mem_cons.mp ((List.mem_append.mp hmem).resolve_left hbefore)).resolve_left hne
      have hearlier : n ∉ earlier := by
        intro hmem
        have hnodup := (List.nodup_append.mp hvisited.nodup).2.1
        refine (List.nodup_cons.mp hnodup).1 (List.mem_append_right _ ?_)
        exact List.mem_cons_of_mem _ hmem
      have hplaced := (hplaced.of_append.2.of_append).1 n hreader
      exact .trans (.single hreader) (hplaced.resolve_left hearlier)
    · cases h

end Reads

section Formulas

open Expression

variable {m : Model}

/-- The formula `f` reads the formula `g`: the name of `g` occurs in the text of `f`. -/
def Feeds (m : Model) (g f : String) : Prop :=
  g ∈ m.formulas.map Prod.fst ∧
    ∃ text names, (f, text) ∈ m.formulas ∧ variableNames text = .ok names ∧ g ∈ names

theorem formulaReads_of_forall (h : ∀ f ∈ m.formulas, variableNames f.2 = .ok (namesIn f.2)) :
    m.formulaReads = .ok (m.formulas.map m.formulasRead) := by
  refine mapM_eq_ok_map_iff.mpr fun f hf => ?_
  simp only [h f hf]
  rfl

theorem feeds_iff (h : ∀ f ∈ m.formulas, variableNames f.2 = .ok (namesIn f.2)) {g f : String} :
    m.Feeds g f ↔ f ∈ readers (m.formulas.map m.formulasRead) g := by
  have hformula : ∀ n, (m.formulas.lookup n).isSome = true ↔ n ∈ m.formulas.map Prod.fst := by
    intro n
    rw [List.lookup_isSome_iff, List.mem_map]
    exact exists_congr fun p => and_congr_right fun _ => beq_iff_eq.trans eq_comm
  rw [mem_readers_iff]
  constructor
  · rintro ⟨hg, text, names, hmem, hnames, hname⟩
    refine ⟨_, List.mem_map_of_mem (f := m.formulasRead) hmem, List.mem_filter.mpr ⟨?_, ?_⟩⟩
    · rw [namesIn_eq hnames]
      exact hname
    · exact (hformula g).mpr hg
  · rintro ⟨names, hmem, hname⟩
    obtain ⟨⟨f', text⟩, htext, heq⟩ := List.mem_map.mp hmem
    cases heq
    obtain ⟨hname, hg⟩ := List.mem_filter.mp hname
    exact ⟨(hformula g).mp hg, text, _, htext, h _ htext, hname⟩

theorem idxOf_lt_of_mem_before {before after : List String} {r name : String}
    (hnodup : (before ++ name :: after).Nodup) (hr : r ∈ before) :
    (before ++ name :: after).idxOf r < (before ++ name :: after).idxOf name := by
  have hname : name ∉ before := fun hmem =>
    (List.nodup_append.mp hnodup).2.2 name hmem name List.mem_cons_self rfl
  rw [List.idxOf_append_of_mem hr, List.idxOf_append_of_notMem hname, List.idxOf_cons_self,
    Nat.add_zero]
  exact List.idxOf_lt_length_of_mem hr

theorem formulaOrder_of_forall (h : ∀ f ∈ m.formulas, variableNames f.2 = .ok (namesIn f.2)) :
    m.formulaOrder = (sortReads (m.formulas.map m.formulasRead)).mapError Error.circular := by
  unfold formulaOrder
  rw [formulaReads_of_forall h]
  simp only [bind, Except.bind]
  cases sortReads (m.formulas.map m.formulasRead) with
  | ok order => rfl
  | error name => rfl

theorem sortReads_formulas_eq_ok {order : List String} (hnames : (m.formulas.map Prod.fst).Nodup)
    (htexts : ∀ f ∈ m.formulas, variableNames f.2 = .ok (namesIn f.2))
    (h : sortReads (m.formulas.map m.formulasRead) = .ok order) :
    order.Perm (m.formulas.map Prod.fst) ∧
      ∀ g f, m.Feeds g f → order.idxOf g < order.idxOf f := by
  rw [← map_fst_formulasRead] at hnames
  obtain ⟨hnodup, hmem, hplaced⟩ := sortReads_eq_ok h hnames
  rw [map_fst_formulasRead] at hmem hnames
  refine ⟨(List.perm_ext_iff_of_nodup hnodup hnames).mpr hmem, fun g f hfeeds => ?_⟩
  obtain ⟨names, hreads, hg⟩ := mem_readers_iff.mp ((feeds_iff htexts).mp hfeeds)
  have hf : f ∈ order := by
    rw [hmem, ← map_fst_formulasRead]
    exact List.mem_map_of_mem hreads
  obtain ⟨before, after, rfl⟩ := List.append_of_mem hf
  refine idxOf_lt_of_mem_before hnodup (hplaced before f after rfl g ?_)
  rw [← map_fst_formulasRead] at hnames
  rw [readBy, lookup_of_nodup hnames hreads]
  exact hg

theorem sortReads_formulas_eq_error {name : String} (hnames : (m.formulas.map Prod.fst).Nodup)
    (htexts : ∀ f ∈ m.formulas, variableNames f.2 = .ok (namesIn f.2))
    (h : sortReads (m.formulas.map m.formulasRead) = .error name) :
    Relation.TransGen m.Feeds name name := by
  have hread : ∀ f ∈ m.formulas.map m.formulasRead, ∀ n ∈ f.2,
      n ∈ (m.formulas.map m.formulasRead).map Prod.fst := by
    intro f hf n hn
    have hfeeds : m.Feeds n f.1 := (feeds_iff htexts).mpr (mem_readers_iff.mpr ⟨f.2, hf, hn⟩)
    rw [map_fst_formulasRead]
    exact hfeeds.1
  rw [← map_fst_formulasRead] at hnames
  have hfeeds : (fun a b => b ∈ readers (m.formulas.map m.formulasRead) a) ≤ m.Feeds :=
    fun _ _ hreader => (feeds_iff htexts).mpr hreader
  exact Relation.TransGen.mono hfeeds name name (sortReads_eq_error hnames hread h)

theorem acyclic_of_order {order : List String}
    (h : ∀ g f, m.Feeds g f → order.idxOf g < order.idxOf f) (n : String) :
    ¬ Relation.TransGen m.Feeds n n := by
  have hlt : ∀ g f, Relation.TransGen m.Feeds g f → order.idxOf g < order.idxOf f := by
    intro g f hpath
    induction hpath with
    | single hfeeds => exact h _ _ hfeeds
    | tail _ hfeeds ih => exact ih.trans (h _ _ hfeeds)
  exact fun hcycle => Nat.lt_irrefl _ (hlt n n hcycle)

/-- The formulas of a model have an order exactly when none depends on itself. An order lists each
formula once and behind those that it reads, and a formula that is reported in place of an order
depends on itself. -/
theorem formulaOrder_eq_ok_iff_acyclic (hnames : (m.formulas.map Prod.fst).Nodup)
    (htexts : ∀ f ∈ m.formulas, ∃ names, variableNames f.2 = .ok names) :
    ((∃ order, m.formulaOrder = .ok order) ↔ ∀ n, ¬ Relation.TransGen m.Feeds n n) ∧
      (∀ order, m.formulaOrder = .ok order → order.Perm (m.formulas.map Prod.fst) ∧
        ∀ g f, m.Feeds g f → order.idxOf g < order.idxOf f) ∧
      ∀ e, m.formulaOrder = .error e →
        ∃ name, e = .circular name ∧ Relation.TransGen m.Feeds name name := by
  have htexts : ∀ f ∈ m.formulas, variableNames f.2 = .ok (namesIn f.2) := by
    intro f hf
    obtain ⟨names, hnames⟩ := htexts f hf
    rw [namesIn_eq hnames]
    exact hnames
  rw [formulaOrder_of_forall htexts]
  cases hsort : sortReads (m.formulas.map m.formulasRead) with
  | ok order =>
    have hsorted := sortReads_formulas_eq_ok hnames htexts hsort
    refine ⟨⟨fun _ => acyclic_of_order hsorted.2, fun _ => ⟨order, rfl⟩⟩, ?_, ?_⟩
    · rintro _ ⟨⟩
      exact hsorted
    · rintro _ ⟨⟩
  | error name =>
    have hcycle := sortReads_formulas_eq_error hnames htexts hsort
    refine ⟨⟨?_, fun hacyclic => (hacyclic name hcycle).elim⟩, ?_, ?_⟩
    · rintro ⟨_, ⟨⟩⟩
    · rintro _ ⟨⟩
    · rintro _ ⟨⟩
      exact ⟨name, rfl, hcycle⟩

/-- Two formulas that read each other. -/
def entwined : Model := { formulas := [("a", "b + c"), ("b", "a")] }

theorem formulaOrder_eq_ok_iff_acyclic_entwined :
    (entwined.formulas.map Prod.fst).Nodup ∧
      (∀ f ∈ entwined.formulas, ∃ names, variableNames f.2 = .ok names) ∧
      ¬ ∃ order, entwined.formulaOrder = .ok order := by
  have hnames : (entwined.formulas.map Prod.fst).Nodup := by decide
  have ha : variableNames "b + c" = .ok ["b", "c"] := by cbv
  have hb : variableNames "a" = .ok ["a"] := by cbv
  have htexts : ∀ f ∈ entwined.formulas, ∃ names, variableNames f.2 = .ok names := by
    intro f hf
    rcases List.mem_cons.mp hf with rfl | hf
    · exact ⟨_, ha⟩
    · cases List.mem_singleton.mp hf
      exact ⟨_, hb⟩
  have hba : entwined.Feeds "b" "a" := ⟨by decide, _, _, List.mem_cons_self, ha, by decide⟩
  have hab : entwined.Feeds "a" "b" :=
    ⟨by decide, _, _, List.mem_cons_of_mem _ List.mem_cons_self, hb, by decide⟩
  refine ⟨hnames, htexts, fun horder => ?_⟩
  exact (formulaOrder_eq_ok_iff_acyclic hnames htexts).1.mp horder "a" (.tail (.single hab) hba)

end Formulas

end ChoiceModel.Model
