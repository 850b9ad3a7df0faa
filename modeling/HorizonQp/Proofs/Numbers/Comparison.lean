/-
  HorizonQp.Proofs.Numbers.Comparison — comparing values some of which are no numbers.

  A comparison with a value that is no number is false, and the numbers are in one order,
  in which zeros of either sign may be level (`LawfulFloatingPoint`). Whatever the absolute
  value of `a` is below is no smaller than `a` in size: a finite bound has only finite
  values within it.

  Both kinds of numbers that a problem is stored in obey this. Their patterns are compared
  by `Format.place`, and the absolute value of a pattern is its magnitude
  (`lawful_of_format`).
-/

import HorizonQp.Binary.Numbers

namespace HorizonQp

open FloatingPoint (nan magnitude isNaN isFinite lt le)

/-- The numbers are in one order, and what is no number compares with nothing. -/
class LawfulFloatingPoint (α : Type) [FloatingPoint α] : Prop where
  isNaN_nan : isNaN (nan : α) = true
  isNaN_zero : isNaN (0 : α) = false
  isNaN_of_isFinite {a : α} : isFinite a = true → isNaN a = false
  numbers_of_le {a b : α} : le a b = true → isNaN a = false ∧ isNaN b = false
  le_total {a b : α} : isNaN a = false → isNaN b = false → le a b = true ∨ le b a = true
  le_trans {a b c : α} : le a b = true → le b c = true → le a c = true
  lt_iff {a b : α} : lt a b = true ↔ isNaN a = false ∧ isNaN b = false ∧ le b a = false
  isNaN_magnitude (a : α) : isNaN (magnitude a) = isNaN a
  isFinite_of_magnitude_le {a b : α} : le (magnitude a) b = true → isFinite b = true → isFinite a = true

namespace FloatingPoint

variable {α : Type} [FloatingPoint α] [LawfulFloatingPoint α] {a b : α}

theorem le_eq_false_of_left (h : isNaN a = true) (b : α) : le a b = false := by
  rw [Bool.eq_false_iff]
  intro hle
  rw [(LawfulFloatingPoint.numbers_of_le hle).1] at h
  cases h

/-- A number that is not below another is at or above it. -/
theorem le_of_not_lt (ha : isNaN a = false) (hb : isNaN b = false) (h : ¬lt a b = true) : le b a = true := by
  cases hle : le b a with
  | true => rfl
  | false => exact absurd (LawfulFloatingPoint.lt_iff.mpr ⟨ha, hb, hle⟩) h

theorem le_of_lt (h : lt a b = true) : le a b = true := by
  obtain ⟨ha, hb, hle⟩ := LawfulFloatingPoint.lt_iff.mp h
  rcases LawfulFloatingPoint.le_total ha hb with h | h
  · exact h
  · rw [hle] at h
    cases h

omit [LawfulFloatingPoint α] in
theorem isNaN_greatest (ha : isNaN a = false) (hb : isNaN b = false) : isNaN (if lt a b then b else a) = false := by
  split
  · exact hb
  · exact ha

/-- The greater of two numbers is within a bound exactly when both are. -/
theorem greatest_le_iff (ha : isNaN a = false) (hb : isNaN b = false) (bound : α) :
    le (if lt a b then b else a) bound = true ↔ le a bound = true ∧ le b bound = true := by
  split
  case isTrue h => exact ⟨fun hle => ⟨LawfulFloatingPoint.le_trans (le_of_lt h) hle, hle⟩, And.right⟩
  case isFalse h => exact ⟨fun hle => ⟨hle, LawfulFloatingPoint.le_trans (le_of_not_lt ha hb h) hle⟩, And.left⟩

end FloatingPoint

/-! ## Numbers that are patterns -/

namespace Binary

namespace Format

variable (F : Format) (bits : Nat)

theorem magnitude_magnitude : F.magnitude (F.magnitude bits) = F.magnitude bits := Nat.mod_mod ..

theorem isNaN_magnitude : F.isNaN (F.magnitude bits) = F.isNaN bits := by
  rw [isNaN, isNaN, magnitude_magnitude]

theorem place_magnitude : F.place (F.magnitude bits) = F.magnitude bits := by
  have hpos : 0 < F.signBit := by
    rw [signBit, Nat.one_shiftLeft]
    exact Nat.two_pow_pos _
  have hsign : F.isNegative (F.magnitude bits) = false := by
    rw [isNegative, decide_eq_false_iff_not, Nat.not_le]
    exact Nat.mod_lt _ hpos
  rw [place, hsign, if_neg Bool.false_ne_true, magnitude_magnitude]

variable {F} {a b : Nat}

theorem le_iff : F.le a b = true ↔ F.isNaN a = false ∧ F.isNaN b = false ∧ F.place a ≤ F.place b := by
  simp only [le, Bool.and_eq_true, Bool.not_eq_true', decide_eq_true_eq, and_assoc]

theorem lt_iff : F.lt a b = true ↔ F.isNaN a = false ∧ F.isNaN b = false ∧ F.place a < F.place b := by
  simp only [lt, Bool.and_eq_true, Bool.not_eq_true', decide_eq_true_eq, and_assoc]

theorem place_le_magnitude : F.place a ≤ F.magnitude a := by
  unfold place
  split <;> omega

end Format

/-- The operations that measure a number are read off its pattern. -/
structure ReadsFormat {α : Type} [FloatingPoint α] (F : Format) (bits : α → Nat) : Prop where
  nan : F.isNaN (bits nan) = true
  zero : F.isNaN (bits 0) = false
  magnitude : ∀ x, bits (magnitude x) = F.magnitude (bits x)
  isNaN : ∀ x, isNaN x = F.isNaN (bits x)
  isFinite : ∀ x, isFinite x = F.isFinite (bits x)
  lt : ∀ x y, lt x y = F.lt (bits x) (bits y)
  le : ∀ x y, le x y = F.le (bits x) (bits y)

theorem lawful_of_format {α : Type} [FloatingPoint α] (F : Format) (bits : α → Nat) (h : ReadsFormat F bits) :
    LawfulFloatingPoint α where
  isNaN_nan := by rw [h.isNaN, h.nan]
  isNaN_zero := by rw [h.isNaN, h.zero]
  isNaN_of_isFinite {a} ha := by
    rw [h.isFinite, Format.isFinite, decide_eq_true_eq] at ha
    rw [h.isNaN, Format.isNaN, decide_eq_false_iff_not]
    omega
  numbers_of_le {a b} hle := by
    rw [h.le, Format.le_iff] at hle
    rw [h.isNaN, h.isNaN]
    exact ⟨hle.1, hle.2.1⟩
  le_total {a b} ha hb := by
    rw [h.isNaN] at ha hb
    rw [h.le, h.le, Format.le_iff, Format.le_iff]
    rcases Int.le_total (F.place (bits a)) (F.place (bits b)) with hle | hle
    · exact .inl ⟨ha, hb, hle⟩
    · exact .inr ⟨hb, ha, hle⟩
  le_trans {a b c} hab hbc := by
    rw [h.le, Format.le_iff] at hab hbc ⊢
    exact ⟨hab.1, hbc.2.1, Int.le_trans hab.2.2 hbc.2.2⟩
  lt_iff {a b} := by
    rw [h.lt, Format.lt_iff, h.isNaN, h.isNaN, h.le]
    refine and_congr_right fun ha => and_congr_right fun hb => ?_
    rw [Bool.eq_false_iff, ne_eq, Format.le_iff, ← Int.not_le]
    exact not_congr ⟨fun hle => ⟨hb, ha, hle⟩, fun hle => hle.2.2⟩
  isNaN_magnitude a := by rw [h.isNaN, h.isNaN, h.magnitude, Format.isNaN_magnitude]
  isFinite_of_magnitude_le {a b} hle hb := by
    rw [h.le, Format.le_iff, h.magnitude, Format.place_magnitude] at hle
    rw [h.isFinite, Format.isFinite, decide_eq_true_eq] at hb ⊢
    have hplace : F.place (bits b) ≤ F.magnitude (bits b) := Format.place_le_magnitude
    omega

/-- Taking the lower bits of a word is taking the rest by the bit above them. -/
theorem and_lowBits (n k : Nat) : n &&& (1 <<< k - 1) = n % 1 <<< k := by
  rw [Nat.one_shiftLeft, Nat.and_two_pow_sub_one_eq_mod]

instance : LawfulFloatingPoint Double :=
  lawful_of_format double (fun x => x.bits.toNat)
    { nan := by decide
      zero := by decide
      magnitude := fun x => (UInt64.toNat_and ..).trans (and_lowBits x.bits.toNat 63)
      isNaN := fun _ => rfl
      isFinite := fun _ => rfl
      lt := fun _ _ => rfl
      le := fun _ _ => rfl }

instance : LawfulFloatingPoint Single :=
  lawful_of_format single (fun x => x.bits.toNat)
    { nan := by decide
      zero := by decide
      magnitude := fun x => (UInt32.toNat_and ..).trans (and_lowBits x.bits.toNat 31)
      isNaN := fun _ => rfl
      isFinite := fun _ => rfl
      lt := fun _ _ => rfl
      le := fun _ _ => rfl }

end Binary

end HorizonQp
