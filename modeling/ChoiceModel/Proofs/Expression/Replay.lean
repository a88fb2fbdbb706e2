import ChoiceModel.Proofs.Expression.Resolving

/-! Compiling a text again. Where a name that has been resolved keeps its index, the moves of a
compilation repeat themselves, and the program and the target come out as before. -/

namespace ChoiceModel.Expression

open Store

/-- What a data source goes through while names keep the indices that they have been resolved to, once
it satisfies an invariant. -/
structure Lasting {σ : Type} [Resolver σ] (R : σ → σ → Prop) (I : σ → Prop) : Prop
    extends Resolving R where
  keeps : ∀ s t, R s t → I s → I t
  read_again : ∀ name i s s' t, I s → Resolver.resolveRead name s = (some i, s') → R s' t →
    Resolver.resolveRead name t = (some i, t)
  array_again : ∀ name i s s' t, I s → Resolver.resolveArray name s = (some i, s') → R s' t →
    Resolver.resolveArray name t = (some i, t)
  assign_again : ∀ name i s s' t, I s → Resolver.resolveAssign name s = (some i, s') → R s' t →
    Resolver.resolveAssign name t = (some i, t)

variable {σ : Type} [Resolver σ] {R : σ → σ → Prop} {I : σ → Prop} (hR : Lasting R I)
  {previous next : Option Token} {b b' : Builder} {s s' t : σ}

include hR

theorem Move.again {position : Nat} {token : Token} (h : Move previous next position token b s b' s')
    (hs : I s) (ht : R s' t) : Move previous next position token b t b' t := by
  cases h with
  | number x => exact .number x b t
  | call _ _ hname hnext => exact .call b t hname hnext
  | matrix hname hnext hbase hresolve =>
    exact .matrix hname hnext hbase (hR.array_again _ _ _ _ _ hs hresolve ht)
  | load hname hnext hbase hresolve =>
    exact .load hname hnext hbase (hR.read_again _ _ _ _ _ hs hresolve ht)
  | «open» => exact .open b t
  | comma _ hsettle hopen => exact .comma t hsettle hopen
  | group _ hsettle hcall hcount => exact .group t hsettle hcall hcount
  | apply _ hsettle hcommas hcount hemit => exact .apply t hsettle hcommas hcount hemit
  | operator _ hsettle => exact .operator t hsettle

theorem Moves.again {ls : List Lexeme} (h : Moves next previous ls b s b' s') (hs : I s)
    (ht : R s' t) : Moves next previous ls b t b' t := by
  induction h with
  | nil _ b _ => exact .nil _ b t
  | cons hmove hmoves ih =>
    have hfirst := hmove.reading hR.toReading
    have hrest := hmoves.reading hR.toReading
    exact .cons (hmove.again hR hs (hR.trans _ _ _ hrest ht)) (ih (hR.keeps _ _ hfirst hs) ht)

theorem compileValue_again {cs : List Char} {p : Program} (h : compileValue cs s = (.ok p, s'))
    (hs : I s) (ht : R s' t) : compileValue cs t = (.ok p, t) := by
  obtain ⟨lexed, hlexed, hrun⟩ := compileValue_eq_ok_iff.mp h
  obtain ⟨b', hmoves, hfinish⟩ := run_eq_ok hrun
  refine compileValue_eq_ok_iff.mpr ⟨lexed, hlexed, ?_⟩
  rw [(hmoves.again hR hs ht).run_eq, hfinish]

/-- A text that has compiled compiles to the same program and the same target ever after. -/
theorem compile_again {text : String} {c : Compiled} (h : compile text s = (.ok c, s')) (hs : I s)
    (ht : R s' t) : compile text t = (.ok c, t) := by
  cases hsplit : splitAssignment none text.toList with
  | none =>
    obtain ⟨hvalue, htarget⟩ := (compile_eq_ok_iff_of_not_split hsplit).mp h
    have hagain := compileValue_again hR hvalue hs ht
    exact (compile_eq_ok_iff_of_not_split hsplit).mpr ⟨hagain, htarget⟩
  | some parts =>
    obtain ⟨s₁, i, hvalue, hcheck, hassign, htarget⟩ := (compile_eq_ok_iff_of_split hsplit).mp h
    have hread := compileValue_reading hR.toReading parts.2 s
    have hassigned := hR.assign (String.ofList (Text.trim parts.1)) s₁
    rw [hvalue] at hread
    rw [hassign] at hassigned
    have hagain := compileValue_again hR hvalue hs (hR.trans _ _ _ hassigned ht)
    have htarget' := hR.assign_again _ _ _ _ _ (hR.keeps _ _ hread hs) hassign ht
    exact (compile_eq_ok_iff_of_split hsplit).mpr ⟨t, i, hagain, hcheck, htarget', htarget⟩

end ChoiceModel.Expression
