import Mathlib

namespace GraphQuery.Decimal

open Float.Model UnpackedFloat

theorem toNat_unpackExponent (b : UInt64) :
    (@unpackExponent Format.binary64 b.toBitVec).toNat = b.toNat / 2 ^ 52 % 2 ^ 11 := by
  rw [unpackExponent_def]
  simp [BitVec.extractLsb'_toNat, Nat.shiftRight_eq_div_pow]

theorem unpackExponent_eq_iff (b : UInt64) :
    @unpackExponent Format.binary64 b.toBitVec = -1#11 ↔ b.toNat / 2 ^ 52 % 2 ^ 11 = 2047 := by
  rw [← BitVec.toNat_inj, toNat_unpackExponent]
  rfl

theorem unpackMantissa_eq_iff (b : UInt64) :
    @unpackMantissa Format.binary64 b.toBitVec = 0#52 ↔ b.toNat % 2 ^ 52 = 0 := by
  rw [← BitVec.toNat_inj, unpackMantissa_def]
  simp [BitVec.extractLsb'_toNat]

def IsNaN (b : UInt64) : Prop :=
  b.toNat / 2 ^ 52 % 2 ^ 11 = 2047 ∧ b.toNat % 2 ^ 52 ≠ 0

theorem isNaNBits_iff (b : UInt64) : @isNaNBits Format.binary64 b.toBitVec = true ↔ IsNaN b := by
  rw [isNaNBits, decide_eq_true_iff, IsNaN, unpackExponent_eq_iff, Ne, unpackMantissa_eq_iff]

theorem toBits_ofBits {b : UInt64} (h : ¬IsNaN b) : (Float.ofBits b).toBits = b := by
  have hpack := @pack_unpack Format.binary64 b.toBitVec (by decide)
  rw [if_neg (mt (isNaNBits_iff b).1 h)] at hpack
  exact UInt64.toBitVec_inj.1 hpack

theorem toBits_ofBits_of_isNaN {b : UInt64} (h : IsNaN b) :
    (Float.ofBits b).toBits = ⟨packedNaN Format.binary64⟩ := by
  have hpack := @pack_unpack Format.binary64 b.toBitVec (by decide)
  rw [if_pos ((isNaNBits_iff b).2 h)] at hpack
  exact UInt64.toBitVec_inj.1 hpack

theorem isNaN_iff (x : Float) : x.isNaN = true ↔ IsNaN x.toBits := by
  change (UnpackedFloat.unpack Format.binary64 x.toBits.toBitVec).isNaN = true ↔ _
  rw [IsNaN, ← unpackExponent_eq_iff, Ne, ← unpackMantissa_eq_iff, UnpackedFloat.unpack]
  dsimp only
  split
  · split <;> simp_all [UnpackedFloat.isNaN]
  · split
    · split <;> simp_all [UnpackedFloat.isNaN]
    · simp_all [UnpackedFloat.isNaN]

theorem isInf_iff (x : Float) :
    x.isInf = true ↔ x.toBits.toNat / 2 ^ 52 % 2 ^ 11 = 2047 ∧ x.toBits.toNat % 2 ^ 52 = 0 := by
  change (UnpackedFloat.unpack Format.binary64 x.toBits.toBitVec).isInf = true ↔ _
  rw [← unpackExponent_eq_iff, ← unpackMantissa_eq_iff, UnpackedFloat.unpack]
  dsimp only
  split
  · split <;> simp_all [UnpackedFloat.isInf]
  · split
    · split <;> simp_all [UnpackedFloat.isInf]
    · simp_all [UnpackedFloat.isInf]

theorem isFinite_eq (x : Float) : x.isFinite = (!x.isNaN && !x.isInf) := by
  change (UnpackedFloat.unpack Format.binary64 x.toBits.toBitVec).isFinite =
    (!(UnpackedFloat.unpack Format.binary64 x.toBits.toBitVec).isNaN &&
      !(UnpackedFloat.unpack Format.binary64 x.toBits.toBitVec).isInf)
  cases UnpackedFloat.unpack Format.binary64 x.toBits.toBitVec <;> rfl

theorem isFinite_iff (x : Float) : x.isFinite = true ↔ x.toBits.toNat / 2 ^ 52 % 2 ^ 11 ≠ 2047 := by
  rw [isFinite_eq, Bool.and_eq_true, Bool.not_eq_true', Bool.not_eq_true', ← Bool.not_eq_true, ← Bool.not_eq_true,
    isNaN_iff, isInf_iff, IsNaN]
  omega

theorem toBits_ofBits_of_isFinite {b : UInt64} (h : (Float.ofBits b).isFinite = true) :
    (Float.ofBits b).toBits = b := by
  by_cases hnan : IsNaN b
  · rw [isFinite_iff, toBits_ofBits_of_isNaN hnan] at h
    exact absurd rfl h
  · exact toBits_ofBits hnan

end GraphQuery.Decimal
