import ChoiceModel.Proofs.Decimal.Whole

/-! Truncation and the order of binary64 values. What a value is unpacked to is read off its bits, so
that a truncated value compares with a natural number as its whole part does. -/

namespace ChoiceModel.Decimal

open Float.Model UnpackedFloat

variable {m n : Nat} {e : Int} {x : Float}

def signOf (x : Float) : Sign := if x.toBits >>> 63 == 1 then .negative else .positive

/-- The whole number in front of the fraction of a finite number. -/
def truncated? (x : Float) : Option Int :=
  if x.isFinite then some ((signOf x).apply (wholePart x)) else none

section Fields

theorem toNat_unpackExponent (b : BitVec 64) :
    (@unpackExponent Format.binary64 b).toNat = b.toNat / 2 ^ 52 % 2 ^ 11 := by
  change (b.toNat >>> 52) % 2 ^ 11 = _
  rw [Nat.shiftRight_eq_div_pow]

theorem toNat_unpackMantissa (b : BitVec 64) :
    (@unpackMantissa Format.binary64 b).toNat = b.toNat % 2 ^ 52 := by
  change (b.toNat >>> 0) % 2 ^ 52 = _
  rw [Nat.shiftRight_zero]

theorem toNat_unpackSign (b : BitVec 64) :
    (@unpackSign Format.binary64 b).toNat = b.toNat / 2 ^ 63 := by
  have hlt := b.isLt
  change (b.toNat >>> 63) % 2 ^ 1 = _
  rw [Nat.shiftRight_eq_div_pow]
  omega

theorem ofBitVec_unpackSign (x : Float) :
    Sign.ofBitVec (@unpackSign Format.binary64 x.toBits.toBitVec) = signOf x := by
  have hsign : (@unpackSign Format.binary64 x.toBits.toBitVec).toNat = (x.toBits >>> 63).toNat := by
    rw [toNat_unpackSign, UInt64.toNat_shiftRight]
    change _ = x.toBits.toNat >>> 63
    rw [Nat.shiftRight_eq_div_pow]
    rfl
  have hlt := (@unpackSign Format.binary64 x.toBits.toBitVec).isLt
  rw [signOf, Sign.ofBitVec]
  by_cases h : (x.toBits >>> 63).toNat = 0
  · have hzero : @unpackSign Format.binary64 x.toBits.toBitVec = 0#1 :=
      BitVec.eq_of_toNat_eq (hsign.trans h)
    have hbit : (x.toBits >>> 63 == 1) = false := by
      refine beq_false_of_ne fun heq => ?_
      rw [heq] at h
      cases h
    rw [hzero, hbit]
    rfl
  · have hzero : @unpackSign Format.binary64 x.toBits.toBitVec ≠ 0#1 := by
      intro heq
      rw [heq] at hsign
      exact h hsign.symm
    have hbit : (x.toBits >>> 63 == 1) = true := by
      rw [beq_iff_eq, ← UInt64.toNat_inj]
      change _ = 1
      omega
    rw [if_neg hzero, hbit]
    rfl

theorem unpackSign_packComponents (s : Sign) (exponent : BitVec 11) (mantissa : BitVec 52) :
    Sign.ofBitVec (unpackSign (packComponents Format.binary64 s exponent mantissa)) = s := by
  have hsign : unpackSign (packComponents Format.binary64 s exponent mantissa) = s.toBitVec := by
    have hexponent := exponent.isLt
    have hmantissa := mantissa.isLt
    apply BitVec.eq_of_toNat_eq
    rw [toNat_unpackSign, packComponents, BitVec.toNat_append, BitVec.toNat_append,
      ← Nat.shiftLeft_add_eq_or_of_lt hexponent, ← Nat.shiftLeft_add_eq_or_of_lt hmantissa,
      Nat.shiftLeft_eq, Nat.shiftLeft_eq]
    omega
  rw [hsign]
  cases s with
  | negative => rfl
  | positive => rfl

end Fields

/-- What a number with a sign and a magnitude is unpacked to. -/
inductive Unpacked (s : Sign) (b : Binary) : UnpackedFloat → Prop where
  | notANumber : b.exponent = 972 → Unpacked s b .notANumber
  | infinity : b.exponent = 972 → Unpacked s b (.infinity s)
  | zero : b.mantissa = 0 → b.exponent < 0 → Unpacked s b (.zero s)
  | finite (hpos : 0 < b.mantissa) : b.exponent < 972 →
    Unpacked s b (.finite s b.mantissa b.exponent hpos)

theorem Unpacked.of_eq {s : Sign} {b : Binary} (hm : b.mantissa = m) (he : b.exponent = e)
    (hlt : e < 972) (hpos : 0 < m) : Unpacked s b (.finite s m e hpos) := by
  subst hm he
  exact .finite hpos hlt

theorem unpacked (x : Float) : Unpacked (signOf x) (Binary.ofFloat x) x.toModel.unpack := by
  have hexponent : (@unpackExponent Format.binary64 x.toBits.toBitVec).toNat =
    x.toBits.toNat / 2 ^ 52 % 2 ^ 11 := toNat_unpackExponent x.toBits.toBitVec
  have hmantissa : (@unpackMantissa Format.binary64 x.toBits.toBitVec).toNat =
    x.toBits.toNat % 2 ^ 52 := toNat_unpackMantissa x.toBits.toBitVec
  have hbias : (Format.binary64.exponentBias : Int) +
    Format.binary64.mantissaBitsWithoutImplicit = 1075 := by decide
  have hbinary : Binary.ofFloat x = Binary.ofBits x.toBits := rfl
  rw [Binary.ofBits] at hbinary
  simp only [exponentField_eq, mantissaField_eq, ← hexponent, ← hmantissa] at hbinary
  change Unpacked _ _ (UnpackedFloat.unpack Format.binary64 x.toBits.toBitVec)
  unfold UnpackedFloat.unpack
  simp only [ofBitVec_unpackSign, hbias]
  split
  · rename_i hones
    have hexp : (Binary.ofFloat x).exponent = 972 := by
      rw [hbinary, hones]
      rfl
    split
    · exact .infinity hexp
    · exact .notANumber hexp
  · rename_i hones
    split
    · rename_i hleast
      rw [hleast] at hbinary ⊢
      split
      · rename_i hzero
        rw [hzero] at hbinary
        exact .zero (by rw [hbinary]; rfl) (by rw [hbinary]; decide)
      · exact .of_eq (by rw [hbinary]; rfl) (by rw [hbinary]; rfl) (by decide) _
    · rename_i hleast
      have hfield := (@unpackExponent Format.binary64 x.toBits.toBitVec).isLt
      have hnormal : (@unpackExponent Format.binary64 x.toBits.toBitVec).toNat ≠ 0 := fun hzero =>
        hleast (BitVec.eq_of_toNat_eq hzero)
      have hfull : (@unpackExponent Format.binary64 x.toBits.toBitVec).toNat ≠ 2047 := fun hfull =>
        hones (BitVec.eq_of_toNat_eq hfull)
      rw [if_neg (by simpa using hnormal)] at hbinary
      change _ < 2048 at hfield
      refine .of_eq ?_ (by rw [hbinary]) (by omega) _
      rw [hbinary, BitVec.toNat_append, ← Nat.shiftLeft_add_eq_or_of_lt (BitVec.isLt _)]
      rfl

theorem isFinite_iff : x.isFinite = true ↔ (Binary.ofFloat x).exponent < 972 := by
  have hx := unpacked x
  change x.toModel.unpack.isFinite = true ↔ _
  generalize x.toModel.unpack = u at hx ⊢
  cases hx with
  | notANumber hexp => simp [UnpackedFloat.isFinite, hexp]
  | infinity hexp => simp [UnpackedFloat.isFinite, hexp]
  | zero hzero hexp => simpa [UnpackedFloat.isFinite] using hexp.trans (by decide)
  | finite hpos hlt => simpa [UnpackedFloat.isFinite] using hlt

/-- A number without a bit behind the point has a full mantissa. -/
theorem le_mantissa (h : 0 ≤ (Binary.ofFloat x).exponent) : 2 ^ 52 ≤ (Binary.ofFloat x).mantissa := by
  revert h
  rw [Binary.ofFloat, Binary.ofBits]
  split
  · intro h
    cases h
  · intro _
    exact Nat.le_add_right _ _

theorem mantissa_lt (x : Float) : (Binary.ofFloat x).mantissa < 2 ^ 53 := by
  rw [Binary.ofFloat, Binary.ofBits]
  simp only [mantissaField_eq]
  have hlt := Nat.mod_lt x.toBits.toNat (Nat.two_pow_pos 52)
  split
  · exact hlt.trans (by decide)
  · exact Nat.add_lt_add_left hlt _

theorem wholePart_lt (h : (Binary.ofFloat x).exponent < 0) : wholePart x < 2 ^ 53 := by
  have hscale : power 2 (Binary.ofFloat x).exponent = 1 := by
    have hamount : (Binary.ofFloat x).exponent.toNat = 0 := by omega
    rw [power, hamount]
  rw [wholePart, hscale, Nat.mul_one]
  exact (Nat.div_le_self _ _).trans_lt (mantissa_lt x)

theorem le_wholePart (h : 0 ≤ (Binary.ofFloat x).exponent) : 2 ^ 52 ≤ wholePart x := by
  have hunits : power 2 (-(Binary.ofFloat x).exponent) = 1 := by
    have hamount : (-(Binary.ofFloat x).exponent).toNat = 0 := by omega
    rw [power, hamount]
  rw [wholePart, hunits, Nat.div_one]
  exact (le_mantissa h).trans (Nat.le_mul_of_pos_right _ (Nat.pow_pos Nat.two_pos))

section Order

theorem le_iff (a b : Float) : a ≤ b ↔ a.toModel.unpack.le b.toModel.unpack = true :=
  decide_eq_true_iff

theorem IsLeading.unpack_float (h : IsLeading m e) :
    h.float.toModel.unpack = .finite .positive m e h.pos := by
  obtain ⟨hm, he⟩ := h.ofFloat_float
  have hpos := h.pos
  have hgreatest := h.greatest
  have hsign : signOf h.float = .positive := by
    rw [signOf, h.sign_float]
    rfl
  have hx := unpacked h.float
  rw [hsign] at hx
  generalize h.float.toModel.unpack = u at hx ⊢
  cases hx with
  | notANumber hexp => omega
  | infinity hexp => omega
  | zero hzero hexp => omega
  | finite hpos hlt => simp only [hm, he]

theorem lt_of_log2_lt (h : m.log2 < n.log2) : m < n := by
  have hn : n ≠ 0 := by
    rintro rfl
    exact absurd h (Nat.not_lt_zero _)
  by_cases hm : m = 0
  · rw [hm]
    exact Nat.pos_of_ne_zero hn
  · exact ((Nat.log2_lt hm).mp h).trans_le (Nat.log2_self_le hn)

theorem unpack_zero : (0 : Nat).toUInt64.toFloat.toModel.unpack = .zero .positive := rfl

/-- Natural numbers compare as the values that they are converted to. -/
theorem toFloat_le_toFloat (hm : 0 < m) (hmlt : m < 2 ^ 53) (hnlt : n < 2 ^ 53) :
    m.toUInt64.toFloat ≤ n.toUInt64.toFloat ↔ m ≤ n := by
  rw [le_iff, toFloat_eq_float hm hmlt, IsLeading.unpack_float]
  rcases Nat.eq_zero_or_pos n with rfl | hn
  · rw [unpack_zero]
    exact iff_of_false Bool.false_ne_true hm.not_ge
  rw [toFloat_eq_float hn hnlt, IsLeading.unpack_float, UnpackedFloat.le, UnpackedFloat.compare,
    Option.any_some]
  -- by the exponents, and by the mantissas if these are the same
  rcases Nat.lt_trichotomy m.log2 n.log2 with hlog | hlog | hlog
  · have hexp : compare (m.log2 - 52 : Int) (n.log2 - 52) = .lt := Int.compare_eq_lt.mpr (by omega)
    have hle : m ≤ n := (lt_of_log2_lt hlog).le
    rw [hexp]
    exact iff_of_true rfl hle
  · have hexp : compare (m.log2 - 52 : Int) (n.log2 - 52) = .eq := Int.compare_eq_eq.mpr (by omega)
    rw [hexp, hlog, Ordering.eq_then, Nat.isLE_compare]
    exact Nat.mul_le_mul_right_iff (Nat.two_pow_pos _)
  · have hexp : compare (m.log2 - 52 : Int) (n.log2 - 52) = .gt := Int.compare_eq_gt.mpr (by omega)
    have hlt : n < m := lt_of_log2_lt hlog
    rw [hexp]
    exact iff_of_false Bool.false_ne_true hlt.not_ge

/-- What has a sign bit is not at least 1. -/
theorem not_one_le (h : signOf x = .negative) : ¬ 1.0 ≤ x := by
  have hone : (1.0 : Float).toModel.unpack = .finite .positive (2 ^ 52) (-52) (by decide) := rfl
  have hx := unpacked x
  rw [le_iff, hone]
  rw [h] at hx
  generalize x.toModel.unpack = u at hx ⊢
  cases hx with
  | notANumber hexp => exact Bool.false_ne_true
  | infinity hexp => exact Bool.false_ne_true
  | zero hzero hexp => exact Bool.false_ne_true
  | finite hpos hlt => exact Bool.false_ne_true

theorem signOf_neg_toFloat (hn : 0 < n) (h : n < 2 ^ 53) :
    signOf (-n.toUInt64.toFloat) = .negative := by
  rw [← ofBitVec_unpackSign]
  change Sign.ofBitVec (unpackSign (UnpackedFloat.pack Format.binary64
    n.toUInt64.toFloat.toModel.unpack.neg)) = _
  rw [toFloat_eq_float hn h, IsLeading.unpack_float]
  unfold UnpackedFloat.neg UnpackedFloat.pack
  simp only
  split
  · exact unpackSign_packComponents _ _ _
  · split
    · exact unpackSign_packComponents _ _ _
    · exact unpackSign_packComponents _ _ _

/-- A number of which no bit stands behind the point is not at most a small natural number. -/
theorem not_le_toFloat (h : 0 ≤ (Binary.ofFloat x).exponent) (hsign : signOf x = .positive)
    (hn : n < 2 ^ 52) : ¬ x ≤ n.toUInt64.toFloat := by
  have hx := unpacked x
  rw [le_iff]
  rw [hsign] at hx
  by_cases hzero : n = 0
  · rw [hzero, unpack_zero]
    generalize x.toModel.unpack = u at hx ⊢
    cases hx with
    | notANumber hexp => exact Bool.false_ne_true
    | infinity hexp => exact Bool.false_ne_true
    | zero hmantissa hexp => omega
    | finite hpos hlt => exact Bool.false_ne_true
  · have hlog : n.log2 < 52 := (Nat.log2_lt hzero).mpr hn
    rw [toFloat_eq_float (Nat.pos_of_ne_zero hzero) (hn.trans (by decide)), IsLeading.unpack_float]
    generalize x.toModel.unpack = u at hx ⊢
    cases hx with
    | notANumber hexp => exact Bool.false_ne_true
    | infinity hexp => exact Bool.false_ne_true
    | zero hmantissa hexp => omega
    | finite hpos hlt =>
      have hexp : compare (Binary.ofFloat x).exponent (n.log2 - 52) = .gt :=
        Int.compare_eq_gt.mpr (by omega)
      rw [UnpackedFloat.le, UnpackedFloat.compare, hexp]
      exact Bool.false_ne_true

end Order

section Truncate

theorem truncate_of_fraction (h : (Binary.ofFloat x).exponent < 0) :
    truncate x = if x.toBits >>> 63 == 1 then -(wholePart x).toUInt64.toFloat
      else (wholePart x).toUInt64.toFloat := by
  rw [truncate, if_pos h]

theorem truncate_of_positive (hfraction : (Binary.ofFloat x).exponent < 0)
    (hsign : signOf x = .positive) : truncate x = (wholePart x).toUInt64.toFloat := by
  rw [truncate_of_fraction hfraction]
  rw [signOf] at hsign
  split at hsign
  · cases hsign
  · rename_i hbit
    rw [if_neg hbit]

theorem truncate_of_negative (hfraction : (Binary.ofFloat x).exponent < 0)
    (hsign : signOf x = .negative) : truncate x = -(wholePart x).toUInt64.toFloat := by
  rw [truncate_of_fraction hfraction]
  rw [signOf] at hsign
  split at hsign
  · rename_i hbit
    rw [if_pos hbit]
  · cases hsign

theorem truncate_of_whole (h : 0 ≤ (Binary.ofFloat x).exponent) : truncate x = x := by
  rw [truncate, if_neg (not_lt.mpr h)]

theorem not_one_le_truncate (hsign : signOf x = .negative) : ¬ 1.0 ≤ truncate x := by
  by_cases hfraction : (Binary.ofFloat x).exponent < 0
  · rw [truncate_of_negative hfraction hsign]
    by_cases hzero : wholePart x = 0
    · rw [hzero]
      decide
    · exact not_one_le
        (signOf_neg_toFloat (Nat.pos_of_ne_zero hzero) (wholePart_lt hfraction))
  · rw [truncate_of_whole (not_lt.mp hfraction)]
    exact not_one_le hsign

theorem truncated?_eq_some {k : Nat} (hk : 0 < k) :
    truncated? x = some (k : Int) ↔
      x.isFinite = true ∧ signOf x = .positive ∧ wholePart x = k := by
  rw [truncated?]
  constructor
  · intro h
    split at h
    · rename_i hfinite
      have hvalue := Option.some.inj h
      cases hsign : signOf x with
      | negative =>
        rw [hsign, Sign.apply] at hvalue
        omega
      | positive =>
        rw [hsign, Sign.apply] at hvalue
        exact ⟨hfinite, rfl, Int.ofNat.inj hvalue⟩
    · cases h
  · rintro ⟨hfinite, hsign, rfl⟩
    rw [if_pos hfinite, hsign]
    rfl

theorem truncate_of_truncated? {k : Nat} (hk : 0 < k) (hlt : k < 2 ^ 52)
    (h : truncated? x = some (k : Int)) : truncate x = k.toUInt64.toFloat := by
  obtain ⟨-, hsign, rfl⟩ := (truncated?_eq_some hk).mp h
  refine truncate_of_positive (not_le.mp fun hwhole => ?_) hsign
  exact absurd (le_wholePart hwhole) (not_le.mpr hlt)

/-- A truncated number lies between 1 and a natural number if its whole part does. -/
theorem truncate_between_iff (hn : n < 2 ^ 52) :
    1.0 ≤ truncate x ∧ truncate x ≤ n.toUInt64.toFloat ↔
      ∃ k : Nat, truncated? x = some (k : Int) ∧ 1 ≤ k ∧ k ≤ n := by
  have hone : (1.0 : Float) = (1 : Nat).toUInt64.toFloat := by decide
  have hlarge : n < 2 ^ 53 := hn.trans (by decide)
  constructor
  · rintro ⟨hlower, hupper⟩
    have hsign : signOf x = .positive := by
      cases h : signOf x with
      | negative => exact absurd hlower (not_one_le_truncate h)
      | positive => rfl
    have hfraction : (Binary.ofFloat x).exponent < 0 := by
      by_contra h
      rw [truncate_of_whole (not_lt.mp h)] at hupper
      exact not_le_toFloat (not_lt.mp h) hsign hn hupper
    rw [truncate_of_positive hfraction hsign] at hlower hupper
    have hpos : 0 < wholePart x := by
      refine Nat.pos_of_ne_zero fun hzero => ?_
      rw [hzero] at hlower
      exact absurd hlower (by decide)
    have hfinite : x.isFinite = true := isFinite_iff.mpr (hfraction.trans (by decide))
    have hle := (toFloat_le_toFloat hpos (wholePart_lt hfraction) hlarge).mp hupper
    exact ⟨_, (truncated?_eq_some hpos).mpr ⟨hfinite, hsign, rfl⟩, hpos, hle⟩
  · rintro ⟨k, htruncated, hk, hkn⟩
    rw [truncate_of_truncated? hk (hkn.trans_lt hn) htruncated, hone,
      toFloat_le_toFloat Nat.one_pos (by decide) (hkn.trans_lt hlarge),
      toFloat_le_toFloat hk (hkn.trans_lt hlarge) hlarge]
    exact ⟨hk, hkn⟩

end Truncate

end ChoiceModel.Decimal
