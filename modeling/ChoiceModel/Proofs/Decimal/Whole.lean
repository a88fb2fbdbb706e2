import ChoiceModel.Decimal.Arithmetic
import Mathlib

/-! Natural numbers as binary64 values. A number of at most 53 bits is shifted to the left end of the
mantissa and none of it is rounded away, so that what is read off the bits is the number again. -/

namespace ChoiceModel.Decimal

open Float.Model UnpackedFloat

variable {m n : Nat} {e : Int}

theorem targetExponent_eq (m : Nat) (e : Int) :
    Format.binary64.targetExponent (totalExponent m e) = max (m.log2 + 1 + e - 53) (-1074) := by
  have hmin : Format.binary64.minExponent = -1074 := by decide
  have hbits : Format.binary64.mantissaBits = 53 := by decide
  rw [Format.targetExponent, totalExponent, hmin, hbits]
  rfl

theorem exponentField_eq (b : UInt64) : ((b >>> 52) &&& 0x7FF).toNat = b.toNat / 2 ^ 52 % 2 ^ 11 := by
  rw [UInt64.toNat_and, UInt64.toNat_shiftRight]
  change (b.toNat >>> 52) &&& (2 ^ 11 - 1) = _
  rw [Nat.and_two_pow_sub_one_eq_mod, Nat.shiftRight_eq_div_pow]

theorem mantissaField_eq (b : UInt64) : (b &&& 0xFFFFFFFFFFFFF).toNat = b.toNat % 2 ^ 52 := by
  rw [UInt64.toNat_and]
  change b.toNat &&& (2 ^ 52 - 1) = _
  rw [Nat.and_two_pow_sub_one_eq_mod]

/-- The mantissa has its leading bit, and the exponent is that of a number from 1 to 2 ^ 53. -/
structure IsLeading (m : Nat) (e : Int) : Prop where
  lower : 2 ^ 52 ≤ m
  upper : m < 2 ^ 53
  least : -52 ≤ e
  greatest : e ≤ 0

namespace IsLeading

theorem pos (h : IsLeading m e) : 0 < m := lt_of_lt_of_le (by positivity) h.lower

theorem log2_eq (h : IsLeading m e) : m.log2 = 52 :=
  (Nat.log2_eq_iff h.pos.ne').mpr ⟨h.lower, h.upper⟩

/-- A mantissa that has its place already is not rounded. -/
theorem roundWithAccuracy_eq (h : IsLeading m e) :
    roundWithAccuracy Format.binary64 .positive m e .exact = .finite .positive m e h.pos := by
  have htarget : Format.binary64.targetExponent (totalExponent m e) = e := by
    have hleast := h.least
    rw [targetExponent_eq, h.log2_eq]
    omega
  have hshift : shiftToTargetExponent Format.binary64 m e .exact = (⟨m, false, false⟩, e) := by
    rw [shiftToTargetExponent, htarget, shiftToExponent, Int.sub_self, Int.toNat_zero,
      Int.natCast_zero, Int.add_zero]
    rfl
  have hrounded : (⟨m, false, false⟩ : ExtendedMantissa).roundedMantissa = m := rfl
  simp only [roundWithAccuracy, hshift, hrounded, h.pos.ne', dite_false]

/-- The sign and the exponent, and the mantissa without its leading bit. -/
theorem pack_eq (h : IsLeading m e) :
    UnpackedFloat.pack Format.binary64 (.finite .positive m e h.pos) =
      packComponents Format.binary64 .positive (BitVec.ofNat _ (e + 1075).toNat)
        (BitVec.ofNat _ m) := by
  have hexponent : e + Format.binary64.exponentBias + Format.binary64.mantissaBitsWithoutImplicit =
      e + 1075 := by
    have hbias : Format.binary64.exponentBias = 1023 := by decide
    have hwidth : Format.binary64.mantissaBitsWithoutImplicit = 52 := rfl
    rw [hbias, hwidth]
    omega
  have hbits : Format.binary64.mantissaBits = 53 := by decide
  have hfinite : ¬ 2 ^ Format.binary64.exponentBits ≤ (e + 1075).toNat + 1 := by
    have hgreatest := h.greatest
    have hwidth : 2 ^ Format.binary64.exponentBits = 2048 := by decide
    omega
  simp only [UnpackedFloat.pack, hexponent, h.log2_eq, hbits, if_neg hfinite, if_true]

theorem toNat_pack (h : IsLeading m e) :
    (UnpackedFloat.pack Format.binary64 (.finite .positive m e h.pos)).toNat =
      (e + 1075).toNat * 2 ^ 52 + (m - 2 ^ 52) := by
  obtain ⟨hlower, hupper, hleast, hgreatest⟩ := h
  have hsign : Sign.positive.toBitVec.toNat = 0 := rfl
  rw [pack_eq ⟨hlower, hupper, hleast, hgreatest⟩, packComponents, BitVec.toNat_append,
    BitVec.toNat_append, BitVec.toNat_ofNat, BitVec.toNat_ofNat,
    ← Nat.shiftLeft_add_eq_or_of_lt (Nat.mod_lt _ (by positivity)),
    ← Nat.shiftLeft_add_eq_or_of_lt (Nat.mod_lt _ (by positivity)), hsign, Nat.shiftLeft_eq,
    Nat.shiftLeft_eq]
  change (0 * 2 ^ 11 + (e + 1075).toNat % 2 ^ 11) * 2 ^ 52 + m % 2 ^ 52 = _
  omega

/-- The value packed from the mantissa and the exponent. -/
def float (h : IsLeading m e) : Float := .ofModel (.pack (.finite .positive m e h.pos))

theorem toNat_toBits (h : IsLeading m e) :
    h.float.toBits.toNat = (e + 1075).toNat * 2 ^ 52 + (m - 2 ^ 52) := h.toNat_pack

theorem sign_float (h : IsLeading m e) : (h.float.toBits >>> 63 == 1) = false := by
  have hbits := h.toNat_toBits
  obtain ⟨hlower, hupper, hleast, hgreatest⟩ := h
  refine beq_false_of_ne fun heq => ?_
  have hvalue := congrArg UInt64.toNat heq
  rw [UInt64.toNat_shiftRight, hbits] at hvalue
  change ((e + 1075).toNat * 2 ^ 52 + (m - 2 ^ 52)) >>> 63 = 1 at hvalue
  rw [Nat.shiftRight_eq_div_pow] at hvalue
  omega

theorem ofFloat_float (h : IsLeading m e) :
    (Binary.ofFloat h.float).mantissa = m ∧ (Binary.ofFloat h.float).exponent = e := by
  have hbits := h.toNat_toBits
  obtain ⟨hlower, hupper, hleast, hgreatest⟩ := h
  rw [Binary.ofFloat, Binary.ofBits]
  simp only [exponentField_eq, mantissaField_eq, hbits]
  have hexponent : ((e + 1075).toNat * 2 ^ 52 + (m - 2 ^ 52)) / 2 ^ 52 % 2 ^ 11 =
      (e + 1075).toNat := by omega
  have hmantissa : ((e + 1075).toNat * 2 ^ 52 + (m - 2 ^ 52)) % 2 ^ 52 = m - 2 ^ 52 := by omega
  have hnormal : ((e + 1075).toNat == 0) = false := beq_false_of_ne (by omega)
  rw [hexponent, hmantissa, hnormal]
  constructor
  · change 0x10000000000000 + (m - 2 ^ 52) = m
    omega
  · change ((e + 1075).toNat : Int) - 1075 = e
    omega

end IsLeading

/-- The leading bit of a number from 1 to 2 ^ 53, moved to the place of the leading bit of a mantissa. -/
theorem isLeading_of_lt (hn : 0 < n) (h : n < 2 ^ 53) :
    IsLeading (n * 2 ^ (52 - n.log2)) (n.log2 - 52) := by
  have hlog : n.log2 < 53 := (Nat.log2_lt hn.ne').mpr h
  have hplace : n.log2 + (52 - n.log2) = 52 := by omega
  constructor
  · calc
      2 ^ 52 = 2 ^ n.log2 * 2 ^ (52 - n.log2) := by rw [← pow_add, hplace]
      _ ≤ n * 2 ^ (52 - n.log2) := Nat.mul_le_mul_right _ (Nat.log2_self_le hn.ne')
  · calc
      n * 2 ^ (52 - n.log2) < 2 ^ (n.log2 + 1) * 2 ^ (52 - n.log2) :=
        Nat.mul_lt_mul_of_pos_right Nat.lt_log2_self (by positivity)
      _ = 2 ^ 53 := by rw [← pow_add, Nat.add_right_comm, hplace]
  · omega
  · omega

theorem ofNat_eq (hn : 0 < n) (h : n < 2 ^ 53) :
    UnpackedFloat.ofNat Format.binary64 n = .finite .positive (n * 2 ^ (52 - n.log2)) (n.log2 - 52)
      (isLeading_of_lt hn h).pos := by
  have hleading := isLeading_of_lt hn h
  have hlog : n.log2 < 53 := (Nat.log2_lt hn.ne').mpr h
  have hsign : compare (n : Int) 0 = .gt := Int.compare_eq_gt.mpr (by omega)
  have htarget : Format.binary64.targetExponent (totalExponent n 0) = n.log2 - 52 := by
    rw [targetExponent_eq]
    omega
  have hshift : decreaseExponent n 0 (n.log2 - 52) =
      (n * 2 ^ (52 - n.log2), (n.log2 - 52 : Int)) := by
    have hamount : (0 - (n.log2 - 52) : Int).toNat = 52 - n.log2 := by omega
    rw [decreaseExponent, hamount, Nat.shiftLeft_eq]
    congr 1
    omega
  rw [UnpackedFloat.ofNat, UnpackedFloat.ofInt, UnpackedFloat.normalize, hsign]
  simp only [Int.toNat_natCast, UnpackedFloat.round, htarget, hshift]
  exact hleading.roundWithAccuracy_eq

theorem toFloat_eq_float (hn : 0 < n) (h : n < 2 ^ 53) :
    n.toUInt64.toFloat = (isLeading_of_lt hn h).float := by
  have hlog : n.log2 < 53 := (Nat.log2_lt hn.ne').mpr h
  have hvalue : n.toUInt64.toNat = n := Nat.mod_eq_of_lt (by omega)
  change Float.ofModel (.pack (UnpackedFloat.ofNat Format.binary64 n.toUInt64.toNat)) = _
  rw [hvalue, ofNat_eq hn h]
  rfl

end ChoiceModel.Decimal
