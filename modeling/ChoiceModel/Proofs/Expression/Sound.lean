import ChoiceModel.Expression.Basic
import ChoiceModel.Proofs.Expression.ForwardPass
import ChoiceModel.Proofs.Expression.Resolving
import ChoiceModel.Proofs.Store.Failures

/-! Compiled expressions among the variables that they were compiled against. All that such an
expression refers to is bound, and stays bound as the variables grow. -/

namespace ChoiceModel.Expression

open Store

variable {ο : Type} {v w : Variables ο}

theorem resolving_grows : Resolving (@Variables.Grows ο) where
  refl := .refl
  trans _ _ _ := .trans
  read := Variables.resolveRead_grows
  array := Variables.resolveArray_grows
  assign := Variables.resolveAssign_grows

theorem supporting_grows : Supporting (@Variables.Grows ο) Variables.Serves where
  toResolving := resolving_grows
  literal _ _ := trivial
  apply _ _ := trivial
  load _ _ _ _ := Variables.resolveRead_serves
  matrix _ _ _ _ := Variables.resolveArray_serves
  mono _ _ _ hgrows h := h.mono hgrows

/-- What a compiled expression relies on: its program is that of a tree, and all that it refers to is
bound, its target to something that can be written. -/
structure Sound (v : Variables ο) (c : Compiled) : Prop where
  tree : ∃ t : Tree Variable, c.program = t.program
  program : c.program.Every v.Serves
  target : ∀ i, c.target = some i → ∃ b, v.bindings[i]? = some b ∧ b.source.isWritable = true

theorem Sound.mono {c : Compiled} (h : Sound v c) (hvw : v.Grows w) : Sound w c := by
  refine ⟨h.tree, h.program.imp fun i hi => hi.mono hvw, fun i hi => ?_⟩
  obtain ⟨b, hb, hwritable⟩ := h.target i hi
  exact ⟨b, hvw.bindings i b hb, hwritable⟩

theorem compile_sound {text : String} {c : Compiled} (h : compile text v = (.ok c, w)) :
    Sound w c := by
  refine ⟨compile_eq_tree h, compile_every supporting_grows h, fun i hi => ?_⟩
  obtain ⟨name, u, hassign⟩ := compile_target h hi
  exact Variables.resolveAssign_isWritable hassign

theorem Program.Raises.isOfData {p : Program} {ctx : Store.Context ο} {e : EvalError}
    (hv : v.Grounded) (hp : p.Every v.Serves) (h : p.Raises v ctx e) : e.isOfData = true := by
  cases h with
  | read hslot hload herror =>
    have hserves := hp _ hslot
    rw [hload] at hserves
    obtain ⟨b, hb, hgroup⟩ := hserves
    exact Variables.read_failsOnData hv hb hgroup ctx e herror
  | readIndexed hslot hmatrix herror =>
    have hserves := hp _ hslot
    rw [hmatrix] at hserves
    obtain ⟨b, hb⟩ := hserves
    exact Variables.readIndexed_failsOnData hv hb _ ctx e herror
  | store hstore =>
    obtain ⟨_, _, rfl⟩ | ⟨_, rfl⟩ := hstore
    · rfl
    · rfl

theorem solve_failsOnData {text : String} {c : Compiled} (hv : v.Grounded) (hc : Sound v c)
    (ctx : Store.Context ο) : FailsOnData ((⟨text, .compiled c⟩ : Expression).solve v ctx).1 := by
  obtain ⟨⟨t, ht⟩, hprogram, htarget⟩ := hc
  have hvalue : ∀ e, (evaluate .silent c.program v ctx ()).1 = .error e → e.isOfData = true := by
    intro e he
    rw [ht] at he hprogram
    exact (evaluate_raises he).isOfData hv hprogram
  unfold solve solveSeen valueSeen
  simp only
  rcases hevaluate : evaluate .silent c.program v ctx () with ⟨r, u⟩
  rw [hevaluate] at hvalue
  cases r with
  | error e => exact .error (hvalue e rfl)
  | ok x =>
    simp only [target?, compiled?, Option.bind_some]
    cases hi : c.target with
    | none => exact .ok x
    | some i =>
      obtain ⟨b, hb, hwritable⟩ := htarget i hi
      have hwrite := Variables.write_failsOnData hv hb hwritable x ctx
      simp only
      split
      · exact .ok x
      · rename_i e herror
        exact .error (hwrite e herror)

end ChoiceModel.Expression
