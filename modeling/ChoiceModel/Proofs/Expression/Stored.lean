import ChoiceModel.Proofs.Decimal.Truncation
import ChoiceModel.Proofs.Expression.Calls

/-! The values that `put` stores. A forward pass has stored the results of the `put` instructions that
it has passed, one for each of them, so that what a `get` finds goes by the instructions alone. -/

namespace ChoiceModel.Expression

open Decimal Store

section Position

variable {stored : List Float} {a : Float}

/-- A position counts to one of the values from the first on. -/
def Selects (a : Float) (count : Nat) : Prop :=
  ∃ k : Nat, truncated? a = some (k : Int) ∧ 1 ≤ k ∧ k ≤ count

theorem ofNat_of_le {n : Nat} (h : n ≤ storeCapacity) : Float.ofNat n = n.toUInt64.toFloat := by
  have hsmall : ∀ n ≤ 32, Float.ofNat n = n.toUInt64.toFloat := by decide
  exact hsmall n h

theorem toNat_toUInt64_of_le {n : Nat} (h : n ≤ storeCapacity) :
    n.toUInt64.toFloat.toUInt64.toNat = n := by
  have hsmall : ∀ n ≤ 32, n.toUInt64.toFloat.toUInt64.toNat = n := by decide
  exact hsmall n h

theorem position_iff (hsize : stored.length ≤ storeCapacity) :
    (truncate a ≥ 1.0 && truncate a ≤ Float.ofNat stored.length) = true ↔
      Selects a stored.length := by
  rw [Bool.and_eq_true, decide_eq_true_iff, decide_eq_true_iff, ofNat_of_le hsize]
  exact truncate_between_iff (hsize.trans_lt (by decide))

theorem storedAt_eq_ok {k : Nat} (hsize : stored.length ≤ storeCapacity) (hk : 1 ≤ k)
    (hle : k ≤ stored.length) (h : truncated? a = some (k : Int)) :
    storedAt stored a = .ok (stored.getD (k - 1) 0.0) := by
  have hposition := (position_iff hsize).mpr ⟨k, h, hk, hle⟩
  have hsmall : k < 2 ^ 52 := (hle.trans hsize).trans_lt (by decide)
  rw [storedAt]
  simp only [hposition, if_true]
  rw [truncate_of_truncated? hk hsmall h, toNat_toUInt64_of_le (hle.trans hsize)]

theorem storedAt_eq_error (hsize : stored.length ≤ storeCapacity)
    (h : ¬ Selects a stored.length) :
    storedAt stored a = .error (.underflow a stored.length) := by
  rw [storedAt]
  exact if_neg (mt (position_iff hsize).mp h)

end Position

theorem Builtin.eval_eq_ok {f : Builtin} {a b c x : Float} {stored stored' : List Float}
    (h : f.eval a b c stored = .ok (x, stored')) :
    (f = .put ∧ stored.length ≠ storeCapacity ∧ x = a ∧ stored' = stored ++ [a]) ∨
      (f ≠ .put ∧ stored' = stored) := by
  cases f with
  | put =>
    rw [Builtin.eval] at h
    split at h
    · cases h
    · rename_i hsize
      cases h
      exact .inl ⟨rfl, by simpa using hsize, rfl, rfl⟩
  | get =>
    rw [Builtin.eval] at h
    cases hat : storedAt stored a with
    | error err =>
      rw [hat] at h
      cases h
    | ok y =>
      rw [hat] at h
      cases h
      exact .inr ⟨Builtin.noConfusion, rfl⟩
  | _ =>
    cases h
    exact .inr ⟨Builtin.noConfusion, rfl⟩

theorem Builtin.outcome_eq_error {f : Builtin} {args stored : List Float} {err : EvalError}
    (h : f.outcome args stored = .error err) :
    (f = .get ∧ storedAt stored (args.getD 0 0.0) = .error err) ∨
      (f = .put ∧ stored.length = storeCapacity ∧ err = .overflow storeCapacity) := by
  rw [outcome] at h
  cases f with
  | put =>
    rw [Builtin.eval] at h
    split at h
    · rename_i hsize
      cases h
      exact .inr ⟨rfl, by simpa using hsize, rfl⟩
    · cases h
  | get =>
    rw [Builtin.eval] at h
    cases hat : storedAt stored (args.getD 0 0.0) with
    | error e =>
      rw [hat] at h
      cases h
      exact .inl ⟨rfl, rfl⟩
    | ok y =>
      rw [hat] at h
      cases h
  | _ => cases h

def Instruction.isPut : Instruction → Bool
  | .apply (.function .put) => true
  | _ => false

/-- The indices of the `put` instructions below an index. -/
def Program.putsBelow (p : Program) (j : Nat) : List Nat :=
  (List.range j).filter fun i => (p.instruction? i).any Instruction.isPut

/-- The indices of all `put` instructions. -/
def Program.puts (p : Program) : List Nat := p.putsBelow p.size

/-- The `put` instructions among the events, each with its result. -/
def putResults (events : List Event) : List (Nat × Float) :=
  (events.filter fun event => event.2.instruction.isPut).map fun event =>
    (event.2.index, event.2.result)

theorem putResults_append (events more : List Event) :
    putResults (events ++ more) = putResults events ++ putResults more := by
  rw [putResults, List.filter_append, List.map_append]
  rfl

theorem putResults_singleton (p : Program) (r : Reduction) :
    putResults [(p, r)] = bif r.instruction.isPut then [(r.index, r.result)] else [] := by
  rw [putResults, List.filter_singleton]
  cases r.instruction.isPut with
  | true => rfl
  | false => rfl

theorem Program.putsBelow_succ {p : Program} {i : Nat} {instruction : Instruction}
    (hi : p.instruction? i = some instruction) :
    p.putsBelow (i + 1) = p.putsBelow i ++ bif instruction.isPut then [i] else [] := by
  rw [putsBelow, List.range_succ, List.filter_append, List.filter_singleton, hi]
  rfl

/-- A `put` stands at the place that the `put`s below it count to. -/
theorem Program.puts_getElem?_iff {p : Program} {j n : Nat}
    (hj : p.instruction? j = some (.apply (.function .put))) :
    p.puts[n]? = some j ↔ (p.putsBelow j).length = n := by
  obtain ⟨slot, hslot, -⟩ := Option.map_eq_some_iff.mp hj
  obtain ⟨hlt, -⟩ := Array.getElem?_eq_some_iff.mp hslot
  obtain ⟨more, hmore⟩ : ∃ more, p.puts = p.putsBelow j ++ j :: more := by
    obtain ⟨n, hn⟩ := Nat.exists_eq_add_of_le (Nat.succ_le_of_lt hlt)
    refine ⟨((List.range n).map (j + 1 + ·)).filter fun i =>
      (p.instruction? i).any Instruction.isPut, ?_⟩
    have hsucc := putsBelow_succ hj
    rw [putsBelow] at hsucc
    rw [puts, putsBelow, size, hn, List.range_add, List.filter_append, hsucc]
    exact List.append_assoc _ [j] _
  have hplace : p.puts[(p.putsBelow j).length]? = some j := by
    rw [hmore, List.getElem?_append_right le_rfl, Nat.sub_self]
    rfl
  constructor
  · intro h
    have hnodup : p.puts.Nodup := List.nodup_range.filter _
    have hsize : (p.putsBelow j).length < p.puts.length := by
      rw [hmore, List.length_append, List.length_cons]
      omega
    exact (List.getElem?_inj hsize hnodup).mp (hplace.trans h.symm)
  · rintro rfl
    exact hplace

/-- The stored values are the results of the `put` instructions below `j`, each of which has been
evaluated once, in the order of the program. -/
structure Program.Stacked (p : Program) (j : Nat) (m : Machine (List Event)) : Prop where
  puts : (putResults m.seen).map Prod.fst = p.putsBelow j
  stored : (putResults m.seen).map Prod.snd = m.stored
  bounded : m.stored.length ≤ storeCapacity

namespace Program.Stacked

variable {p : Program} {i : Nat} {m : Machine (List Event)}

/-- Nothing changes with a reduction that is no `put`. -/
theorem see (h : p.Stacked i m) {r : Reduction} (hr : r.instruction.isPut = false) :
    p.Stacked i (m.see .log p r) := by
  have hseen : putResults (m.see .log p r).seen = putResults m.seen := by
    change putResults (m.seen ++ [(p, r)]) = _
    rw [putResults_append, putResults_singleton, hr]
    exact List.append_nil _
  exact ⟨by rw [hseen, h.puts], by rw [hseen, h.stored]; rfl, h.bounded⟩

theorem step (h : p.Stacked i m) {instruction : Instruction}
    (hi : p.instruction? i = some instruction) (hput : instruction.isPut = false) :
    p.Stacked (i + 1) m := by
  have hbelow : p.putsBelow (i + 1) = p.putsBelow i := by
    rw [putsBelow_succ hi, hput]
    exact List.append_nil _
  exact ⟨by rw [hbelow, h.puts], h.stored, h.bounded⟩

theorem put (h : p.Stacked i m) (hi : p.instruction? i = some (.apply (.function .put)))
    (hsize : m.stored.length ≠ storeCapacity) (args : List Float) (x : Float) :
    p.Stacked (i + 1)
      ({ m with stored := m.stored ++ [x] }.see .log p ⟨i, .apply (.function .put), args, x⟩) := by
  have hseen : putResults ({ m with stored := m.stored ++ [x] }.see .log p
      ⟨i, .apply (.function .put), args, x⟩).seen = putResults m.seen ++ [(i, x)] := by
    change putResults (m.seen ++ [_]) = _
    rw [putResults_append, putResults_singleton]
    rfl
  constructor
  · rw [hseen, List.map_append, h.puts, putsBelow_succ hi]
    rfl
  · rw [hseen, List.map_append, h.stored]
    rfl
  · have hbounded := h.bounded
    change (m.stored ++ [x]).length ≤ storeCapacity
    rw [List.length_append, List.length_singleton]
    omega

theorem nil : p.Stacked 0 ⟨[], []⟩ := ⟨rfl, rfl, Nat.zero_le _⟩

theorem length_eq (h : p.Stacked i m) : m.stored.length = (p.putsBelow i).length := by
  rw [← h.stored, ← h.puts, List.length_map, List.length_map]

/-- A `get` returns the result of the `put` that its position counts to. -/
theorem get_outcome {a : Float} {k : Nat} (h : p.Stacked i m) (hk : truncated? a = some (k : Int))
    (hpos : 1 ≤ k) (hle : k ≤ (p.putsBelow i).length) :
    ∃ j x, (p.putsBelow i)[k - 1]? = some j ∧ (putResults m.seen)[k - 1]? = some (j, x) ∧
      Builtin.get.outcome [a] m.stored = .ok (x, m.stored) := by
  have hlt : k - 1 < (putResults m.seen).length := by
    rw [← h.puts, List.length_map] at hle
    omega
  have hresult := List.getElem?_eq_getElem hlt
  generalize (putResults m.seen)[k - 1] = result at hresult
  obtain ⟨j, x⟩ := result
  have hindex : (p.putsBelow i)[k - 1]? = some j := by
    rw [← h.puts, List.getElem?_map, hresult]
    rfl
  have hvalue : m.stored[k - 1]? = some x := by
    rw [← h.stored, List.getElem?_map, hresult]
    rfl
  have hat := storedAt_eq_ok h.bounded hpos (h.length_eq ▸ hle) hk
  rw [List.getD_eq_getElem?_getD, hvalue] at hat
  refine ⟨j, x, hindex, hresult, ?_⟩
  change (storedAt m.stored a).map _ = _
  rw [hat]
  rfl

theorem get_outcome_underflow {a : Float} (h : p.Stacked i m)
    (hselects : ¬ Selects a (p.putsBelow i).length) :
    Builtin.get.outcome [a] m.stored = .error (.underflow a (p.putsBelow i).length) := by
  rw [← h.length_eq] at hselects ⊢
  change (storedAt m.stored a).map _ = _
  rw [storedAt_eq_error h.bounded hselects]
  rfl

theorem put_outcome_overflow {a : Float} (h : p.Stacked i m)
    (hsize : (p.putsBelow i).length = storeCapacity) :
    Builtin.put.outcome [a] m.stored = .error (.overflow storeCapacity) := by
  rw [Builtin.outcome, Builtin.eval, h.length_eq, hsize]
  rfl

end Program.Stacked

section Pass

variable {σ κ : Type} [Cells σ κ] {p : Program} {table : σ} {ctx : κ} {i : Nat}
  {stack stack' : List Item} {m m' : Machine (List Event)}

theorem forwardStep_stacked {instruction : Instruction} (hi : p.instruction? i = some instruction)
    (hm : p.Stacked i m)
    (h : forwardStep .log p table ctx i instruction stack m = (.ok stack', m')) :
    p.Stacked (i + 1) m' := by
  unfold forwardStep at h
  split at h
  · cases h
    exact (hm.step hi rfl).see rfl
  · split at h
    · cases h
      exact (hm.step hi rfl).see rfl
    · cases h
  · cases h
    exact hm.step hi rfl
  · split at h
    · split at h
      · cases h
        exact (hm.step hi rfl).see rfl
      · cases h
    · cases h
  · split at h
    · cases h
      exact (hm.step hi rfl).see rfl
    · cases h
  · rename_i f
    split at h
    · split at h
      · rename_i heval
        cases h
        rcases Builtin.eval_eq_ok heval with ⟨rfl, hsize, rfl, rfl⟩ | ⟨hput, rfl⟩
        · exact hm.put hi hsize _ _
        · have hother : (Instruction.apply (.function f)).isPut = false := by
            cases f with
            | put => exact absurd rfl hput
            | _ => rfl
          exact (hm.step hi hother).see hother
      · cases h
    · cases h

theorem forward_stacked {slots : List Slot} (hholds : p.Holds i slots) (hm : p.Stacked i m)
    (h : forward .log p table ctx i slots stack m = (.ok stack', m')) :
    p.Stacked (i + slots.length) m' := by
  induction slots generalizing i stack m with
  | nil =>
    cases h
    exact hm
  | cons slot slots ih =>
    rw [← List.singleton_append] at hholds
    rw [forward] at h
    split at h
    · rename_i stack₁ m₁ hstep
      have hnext := forwardStep_stacked hholds.left.instruction? hm hstep
      have hrest := ih hholds.right hnext h
      rwa [List.length_cons, Nat.add_comm slots.length, ← Nat.add_assoc]
    · cases h

end Pass

end ChoiceModel.Expression
