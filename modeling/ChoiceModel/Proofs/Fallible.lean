import Mathlib.Data.List.Forall2

/-! Computations that may fail, taken apart where they succeed: a step with what follows it, and one
step for each element of a list. -/

namespace ChoiceModel

variable {ε α β : Type}

theorem exists_of_bind_eq_ok {r : Except ε α} {f : α → Except ε β} {b : β}
    (h : (r >>= f) = .ok b) : ∃ a, r = .ok a ∧ f a = .ok b := by
  cases r with
  | error e => cases h
  | ok a => exact ⟨a, rfl, h⟩

theorem bind_eq_ok_iff {r : Except ε α} {f : α → Except ε β} {b : β} :
    (r >>= f) = .ok b ↔ ∃ a, r = .ok a ∧ f a = .ok b := by
  refine ⟨exists_of_bind_eq_ok, ?_⟩
  rintro ⟨a, rfl, h⟩
  exact h

theorem bind_eq_error_iff {r : Except ε α} {f : α → Except ε β} {e : ε} :
    (r >>= f) = .error e ↔ r = .error e ∨ ∃ a, r = .ok a ∧ f a = .error e := by
  cases r with
  | error e' => simp [bind, Except.bind]
  | ok a => simp [bind, Except.bind]

theorem mapError_bind {r : Except ε α} {f : α → Except ε β} {g : ε → ε} :
    (r >>= f).mapError g = r.mapError g >>= fun a => (f a).mapError g := by
  cases r with
  | error e => rfl
  | ok a => rfl

variable {f : α → Except ε β} {g : α → β} {as : List α} {bs : List β}

theorem mapM_eq_ok_iff : as.mapM f = .ok bs ↔ List.Forall₂ (fun a b => f a = .ok b) as bs := by
  induction as generalizing bs with
  | nil =>
    refine ⟨fun h => ?_, fun h => ?_⟩
    · cases h
      exact .nil
    · cases h
      rfl
  | cons a as ih =>
    rw [List.mapM_cons]
    refine ⟨fun h => ?_, fun h => ?_⟩
    · obtain ⟨b, hfirst, h⟩ := exists_of_bind_eq_ok h
      obtain ⟨bs', hrest, h⟩ := exists_of_bind_eq_ok h
      cases h
      exact .cons hfirst (ih.mp hrest)
    · cases h with
      | cons hfirst hrest =>
        rw [hfirst, ih.mpr hrest]
        rfl

theorem mapM_eq_ok_map_iff : as.mapM f = .ok (as.map g) ↔ ∀ a ∈ as, f a = .ok (g a) := by
  rw [mapM_eq_ok_iff, List.forall₂_map_right_iff, List.forall₂_same]

theorem eq_map_of_mapM_eq_ok (hg : ∀ a b, f a = .ok b → g a = b) (h : as.mapM f = .ok bs) :
    bs = as.map g := by
  have hall := List.forall₂_map_left_iff.mpr ((mapM_eq_ok_iff.mp h).imp hg)
  rw [List.forall₂_eq_eq_eq] at hall
  exact hall.symm

theorem exists_mapM_eq_ok (h : ∀ a ∈ as, ∃ b, f a = .ok b) : ∃ bs, as.mapM f = .ok bs := by
  induction as with
  | nil => exact ⟨[], rfl⟩
  | cons a as ih =>
    obtain ⟨b, hb⟩ := h a List.mem_cons_self
    obtain ⟨bs, hbs⟩ := ih fun a' ha => h a' (List.mem_cons_of_mem _ ha)
    exact ⟨b :: bs, mapM_eq_ok_iff.mpr (.cons hb (mapM_eq_ok_iff.mp hbs))⟩

/-- A run over a list ends with the first element that fails. -/
theorem mapM_eq_error_iff {e : ε} : as.mapM f = .error e ↔
    ∃ a, as.find? (fun a => !(f a).isOk) = some a ∧ f a = .error e := by
  induction as with
  | nil => exact iff_of_false (fun h => nomatch h) fun ⟨_, h, _⟩ => nomatch h
  | cons a as ih =>
    rw [List.mapM_cons, List.find?_cons]
    cases hfirst : f a with
    | error e' =>
      change Except.error e' = .error e ↔ _
      rw [Except.error.injEq]
      refine ⟨fun h => ⟨a, rfl, h ▸ hfirst⟩, ?_⟩
      rintro ⟨_, ⟨⟩, h⟩
      exact Except.error.inj (hfirst.symm.trans h)
    | ok b =>
      change (as.mapM f >>= fun bs => .ok (b :: bs)) = .error e ↔ _
      rw [bind_eq_error_iff, ih]
      exact or_iff_left fun ⟨_, _, h⟩ => nomatch h

end ChoiceModel
