/-
  HorizonQp.Proofs.Numbers.Difference — differences with values that are no numbers.

  A difference with a value that is no number is none (`LawfulDifference`). Both kinds of
  numbers obey this: such a value has all exponent bits set and some fraction bit
  (`Format.bits_of_isNaN`), so the machine reads no number from it (`unpack_of_isNaN`) and
  answers with none.
-/

import HorizonQp.Proofs.Numbers.Comparison

namespace HorizonQp

open FloatingPoint (isNaN)

/-- A difference with a value that is no number is none. -/
class LawfulDifference (α : Type) [FloatingPoint α] : Prop where
  isNaN_sub {a b : α} : isNaN a = true ∨ isNaN b = true → isNaN (a - b) = true

namespace Binary

open Float.Model (UnpackedFloat)

/-- A magnitude above infinity has all exponent bits set, and some fraction bit. -/
theorem Format.bits_of_isNaN {F : Format} {bits : Nat} (h : F.isNaN bits = true) :
    bits / F.leadingBit % 1 <<< F.exponent = 1 <<< F.exponent - 1 ∧ bits % F.leadingBit ≠ 0 := by
  have hone (k : Nat) : 0 < 1 <<< k := Nat.one_shiftLeft k ▸ Nat.two_pow_pos k
  have hsign : F.signBit = F.leadingBit * 1 <<< F.exponent := by
    rw [signBit, leadingBit, Nat.add_comm, Nat.one_shiftLeft, Nat.one_shiftLeft, Nat.one_shiftLeft, Nat.pow_add]
  rw [isNaN, infinity, magnitude, hsign, decide_eq_true_eq, Nat.mod_mul, Nat.mul_comm F.leadingBit] at h
  have hexp := Nat.mod_lt (bits / F.leadingBit) (hone F.exponent)
  have hfrac : bits % F.leadingBit < F.leadingBit := Nat.mod_lt _ (hone F.fraction)
  generalize bits / F.leadingBit % 1 <<< F.exponent = e at h hexp ⊢
  -- with any exponent bit missing, no fraction bits bring the magnitude above infinity
  have hge : 1 <<< F.exponent - 1 ≤ e := by
    apply Nat.le_of_not_lt
    intro hlt
    have hle := Nat.mul_le_mul_right F.leadingBit (Nat.succ_le_of_lt hlt)
    rw [Nat.succ_mul] at hle
    omega
  obtain rfl : e = 1 <<< F.exponent - 1 := by omega
  exact ⟨rfl, by omega⟩

theorem unpack_of_isNaN {spec : Float.Model.Format} {b : BitVec spec.numBits}
    (h : Format.isNaN ⟨spec.exponentBits, spec.mantissaBitsWithoutImplicit⟩ b.toNat = true) :
    UnpackedFloat.unpack spec b = .notANumber := by
  obtain ⟨hexp, hfrac⟩ := Format.bits_of_isNaN h
  simp only [Format.leadingBit, Nat.one_shiftLeft] at hexp hfrac
  have hm := spec.hm
  have he := spec.he
  have hexp' : UnpackedFloat.unpackExponent b = -BitVec.ofNat spec.exponentBits 1 := by
    apply BitVec.eq_of_toNat_eq
    rw [UnpackedFloat.unpackExponent, BitVec.toNat_cast, BitVec.extractLsb_toNat, BitVec.neg_one_eq_allOnes,
      BitVec.toNat_allOnes, Nat.shiftRight_eq_div_pow,
      show spec.mantissaBitsWithoutImplicit + spec.exponentBits - 1 - spec.mantissaBitsWithoutImplicit + 1 =
        spec.exponentBits by omega]
    exact hexp
  have hfrac' : UnpackedFloat.unpackMantissa b ≠ BitVec.ofNat spec.mantissaBitsWithoutImplicit 0 := by
    intro hzero
    have hzero := congrArg BitVec.toNat hzero
    rw [UnpackedFloat.unpackMantissa, BitVec.toNat_cast, BitVec.extractLsb_toNat, Nat.shiftRight_zero,
      show spec.mantissaBitsWithoutImplicit - 1 - 0 + 1 = spec.mantissaBitsWithoutImplicit by omega] at hzero
    exact hfrac hzero
  show (if UnpackedFloat.unpackExponent b = _ then if UnpackedFloat.unpackMantissa b = _ then _ else _ else _) = _
  rw [if_pos hexp', if_neg hfrac']

theorem sub_eq_notANumber {spec : Float.Model.Format} {a b : UnpackedFloat} (h : a = .notANumber ∨ b = .notANumber) :
    UnpackedFloat.sub spec a b = .notANumber := by
  rcases h with rfl | rfl
  · rfl
  · cases a <;> rfl

/-- The machine's reading of a pattern that is no number. -/
theorem Double.unpack_toFloat {x : Double} (h : isNaN x = true) : x.toFloat.toModel.unpack = .notANumber := by
  have hx : UnpackedFloat.unpack Float.Model.Format.binary64 x.bits.toBitVec = .notANumber := unpack_of_isNaN h
  show UnpackedFloat.unpack _ (UnpackedFloat.pack _ (UnpackedFloat.unpack _ _)) = _
  rw [hx]
  rfl

theorem Single.unpack_toFloat {x : Single} (h : isNaN x = true) : x.toFloat.toModel.unpack = .notANumber := by
  have hx : UnpackedFloat.unpack Float.Model.Format.binary32 x.bits.toBitVec = .notANumber := unpack_of_isNaN h
  show UnpackedFloat.unpack _ (UnpackedFloat.pack _ (UnpackedFloat.unpack _ _)) = _
  rw [hx]
  rfl

instance : LawfulDifference Double where
  isNaN_sub {a b} h := by
    show double.isNaN (UnpackedFloat.pack _ (UnpackedFloat.sub _ a.toFloat.toModel.unpack b.toFloat.toModel.unpack)).toNat = true
    rw [sub_eq_notANumber (h.imp Double.unpack_toFloat Double.unpack_toFloat)]
    decide

instance : LawfulDifference Single where
  isNaN_sub {a b} h := by
    show single.isNaN (UnpackedFloat.pack _ (UnpackedFloat.sub _ a.toFloat.toModel.unpack b.toFloat.toModel.unpack)).toNat = true
    rw [sub_eq_notANumber (h.imp Single.unpack_toFloat Single.unpack_toFloat)]
    decide

end Binary

end HorizonQp
