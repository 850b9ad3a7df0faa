/-
  HorizonQp.Proofs.Linear.Distance — the distance of two vectors and the norm of their
  difference.

  Both are running maxima of absolute values. The norm ends at the first value that is no
  number (`normFrom`); the distance lets such a value give way to the maximum so far
  (`normInfDiff`). So the distance is the norm of those differences that are numbers
  (`normInfDiff_eq`). It is itself a number, also where the norm of the difference is none,
  and the two agree exactly when every difference is a number (`distance_of_numbers`). A
  distance within a tolerance says nothing of the places where either entry is no number.

  The norm never does this: `distance_misses_nan` is a vector without a number in it at the
  distance zero from one of zeros.
-/

import HorizonQp.Proofs.Numbers.Difference
import HorizonQp.Proofs.Residual.Convergence

namespace HorizonQp.Linear

open FloatingPoint (nan magnitude isNaN lt le greater)

variable {α : Type} [FloatingPoint α]

/-- The elementwise difference. -/
def differences (x y : List α) : List α := List.zipWith (· - ·) x y

/-- The entries that are numbers. -/
def numbersOf (x : List α) : List α := x.filter fun a => !isNaN a

/-- Two values are one, or neither is a number. -/
def SameValue (a b : α) : Prop := a = b ∨ isNaN a = true ∧ isNaN b = true

theorem numbersOf_eq_self {x : List α} (h : ∀ a ∈ x, isNaN a = false) : numbersOf x = x :=
  List.filter_eq_self.mpr fun a ha => by rw [h a ha]; rfl

theorem differences_eraseIdx (x y : List α) (i : Nat) :
    differences (x.eraseIdx i) (y.eraseIdx i) = (differences x y).eraseIdx i := by
  unfold differences
  induction x generalizing y i with
  | nil => simp
  | cons a x ih =>
    cases y with
    | nil => simp
    | cons b y =>
      cases i with
      | zero => rfl
      | succ i => simp only [List.eraseIdx_cons_succ, List.zipWith_cons_cons, ih]

/-- Leaving out an entry that is no number leaves the numbers. -/
theorem numbersOf_eraseIdx {x : List α} {i : Nat} (h : ∀ a, x[i]? = some a → isNaN a = true) :
    numbersOf (x.eraseIdx i) = numbersOf x := by
  unfold numbersOf
  induction x generalizing i with
  | nil => rfl
  | cons a x ih =>
    cases i with
    | zero => simp [h a rfl]
    | succ i => simp only [List.eraseIdx_cons_succ, List.filter_cons, ih h]

variable [LawfulFloatingPoint α]

/-! ## The norm -/

/-- The norm is no number as soon as one entry is none. -/
theorem isNaN_normFrom {out : α} (hout : isNaN out = false) (xs : List α) : isNaN (normFrom out xs) = xs.any isNaN := by
  induction xs generalizing out with
  | nil => exact hout
  | cons x xs ih =>
    have hmag := LawfulFloatingPoint.isNaN_magnitude x
    rw [normFrom, hmag, List.any_cons]
    cases hx : isNaN x with
    | true => exact LawfulFloatingPoint.isNaN_nan
    | false =>
      rw [if_neg Bool.false_ne_true, Bool.false_or]
      exact ih (FloatingPoint.isNaN_greatest hout (hmag.trans hx))

theorem isNaN_normInf (x : List α) : isNaN (normInf x) = x.any isNaN := isNaN_normFrom LawfulFloatingPoint.isNaN_zero x

/-! ## The distance -/

/-- Up to any place, the greatest of the numbers so far is the norm of these. -/
theorem foldl_greater {out : α} (hout : isNaN out = false) (ds : List α) :
    ds.foldl (fun out d => greater out (magnitude d)) out = normFrom out (numbersOf ds) := by
  induction ds generalizing out with
  | nil => rfl
  | cons d ds ih =>
    have hmag := LawfulFloatingPoint.isNaN_magnitude d
    rw [List.foldl_cons, greater, hout, if_neg Bool.false_ne_true, hmag, numbersOf, List.filter_cons]
    cases hd : isNaN d with
    | true =>
      rw [if_pos rfl]
      exact ih hout
    | false =>
      rw [if_neg Bool.false_ne_true, Bool.not_false, if_pos rfl, normFrom, hmag, hd, if_neg Bool.false_ne_true]
      exact ih (FloatingPoint.isNaN_greatest hout (hmag.trans hd))

/-- The distance is the norm of the differences that are numbers. -/
theorem normInfDiff_eq (x y : List α) : normInfDiff x y = normInf (numbersOf (differences x y)) := by
  have hmap : List.zipWith (fun xi yi => magnitude (xi - yi)) x y = (differences x y).map magnitude := by
    rw [differences, List.map_zipWith]
  rw [normInfDiff, hmap, List.foldl_map, foldl_greater LawfulFloatingPoint.isNaN_zero, normInf]

theorem isNaN_normInfDiff (x y : List α) : isNaN (normInfDiff x y) = false := by
  rw [normInfDiff_eq, isNaN_normInf, List.any_eq_false]
  intro d hd
  simpa using (List.mem_filter.mp hd).2

theorem sameValue_iff {x y : List α} :
    SameValue (normInfDiff x y) (normInf (differences x y)) ↔ ∀ d ∈ differences x y, isNaN d = false := by
  constructor
  · rintro (heq | ⟨hnan, -⟩)
    · -- the distance is a number, so the norm is one
      have hnorm := isNaN_normInfDiff x y
      rw [heq, isNaN_normInf, List.any_eq_false] at hnorm
      exact fun d hd => Bool.eq_false_iff.mpr (hnorm d hd)
    · rw [isNaN_normInfDiff] at hnan
      cases hnan
  · intro h
    rw [normInfDiff_eq, numbersOf_eq_self h]
    exact .inl rfl

/-- A distance within a bound says of every difference that is a number that it is within it. -/
theorem within_iff {x y : List α} {bound : α} (hbound : le 0 bound = true) :
    le (normInfDiff x y) bound = true ↔ ∀ d ∈ differences x y, isNaN d = true ∨ le (magnitude d) bound = true := by
  rw [normInfDiff_eq, le_normInf_iff hbound]
  simp only [numbersOf, List.mem_filter, Bool.not_eq_true', and_imp]
  refine forall₂_congr fun d hd => ?_
  cases isNaN d <;> simp

/-- A place where either entry is no number may be left out. -/
theorem passesOver [LawfulDifference α] {x y : List α} (h : x.length = y.length) {i : Nat} {a b : α} (ha : x[i]? = some a)
    (hb : y[i]? = some b) (hnan : isNaN a = true ∨ isNaN b = true) :
    normInfDiff? (x.eraseIdx i) (y.eraseIdx i) = normInfDiff? x y := by
  have hx : i < x.length := (List.getElem?_eq_some_iff.mp ha).1
  have hd : ∀ d, (differences x y)[i]? = some d → isNaN d = true := by
    intro d hd
    rw [differences, List.getElem?_zipWith, ha, hb] at hd
    cases hd
    exact LawfulDifference.isNaN_sub hnan
  have hlen : (x.eraseIdx i).length = (y.eraseIdx i).length := by
    rw [List.length_eraseIdx_of_lt hx, List.length_eraseIdx_of_lt (h ▸ hx), h]
  rw [normInfDiff?, normInfDiff?, if_pos h, if_pos hlen, normInfDiff_eq, normInfDiff_eq, differences_eraseIdx,
    numbersOf_eraseIdx hd]

/-- What the distance of two vectors is, and what it leaves out. -/
structure DistanceOfNumbers (x y : List α) : Prop where
  /-- It is the norm of the differences that are numbers. -/
  answers : normInfDiff? x y = some (normInf (numbersOf (differences x y)))
  /-- So it is a number, whatever the entries are. -/
  number : isNaN (normInfDiff x y) = false
  /-- The norm of the difference is none as soon as one difference is. -/
  norm : isNaN (normInf (differences x y)) = true ↔ ∃ d ∈ differences x y, isNaN d = true
  /-- So the two agree exactly when all differences are numbers. -/
  sameValue : SameValue (normInfDiff x y) (normInf (differences x y)) ↔ ∀ d ∈ differences x y, isNaN d = false
  /-- Being within a tolerance says nothing of the other places. -/
  within : ∀ bound, le 0 bound = true →
    (le (normInfDiff x y) bound = true ↔ ∀ d ∈ differences x y, isNaN d = true ∨ le (magnitude d) bound = true)
  /-- An entry that is no number may as well not be there. -/
  passesOver : ∀ (i : Nat) (a b : α), x[i]? = some a → y[i]? = some b → isNaN a = true ∨ isNaN b = true →
    normInfDiff? (x.eraseIdx i) (y.eraseIdx i) = normInfDiff? x y

/-- The distance of two vectors is the norm of those of their differences that are numbers. -/
theorem distance_of_numbers [LawfulDifference α] {x y : List α} (h : x.length = y.length) : DistanceOfNumbers x y where
  answers := by rw [normInfDiff?, if_pos h, normInfDiff_eq]
  number := isNaN_normInfDiff x y
  norm := by rw [isNaN_normInf, List.any_eq_true]
  sameValue := sameValue_iff
  within _ hbound := within_iff hbound
  passesOver _ _ _ := passesOver h

/-- Two equal infinities and a value that is no number do not count beside the distance three. -/
theorem distance_of_numbers_infinite :
    let inf : Binary.Double := ⟨0x7ff0000000000000⟩
    let x : List Binary.Double := [inf, nan, ⟨0xc000000000000000⟩]
    let y : List Binary.Double := [inf, 1, 1]
    x.length = y.length ∧ normInfDiff? x y = some ⟨0x4008000000000000⟩ ∧ isNaN (normInf (differences x y)) = true ∧
      normInfDiff? (x.eraseIdx 1) (y.eraseIdx 1) = normInfDiff? x y := by
  intro inf x y
  have h : DistanceOfNumbers x y := distance_of_numbers rfl
  have hnorm : normInf (numbersOf (differences x y)) = ⟨0x4008000000000000⟩ := by decide
  refine ⟨rfl, ?_, ?_, ?_⟩
  · rw [h.answers, hnorm]
  · exact h.norm.mpr (by decide)
  · exact h.passesOver 1 nan 1 rfl rfl (by decide)

/-- A vector without a number in it is at the distance zero from one of zeros, and the norm of
    their difference is no number. -/
theorem distance_misses_nan :
    normInfDiff? ([nan] : List Binary.Double) [0] = some 0 ∧ isNaN (normInf (differences ([nan] : List Binary.Double) [0])) = true ∧
      ¬SameValue (normInfDiff ([nan] : List Binary.Double) [0]) (normInf (differences [nan] [0])) := by
  unfold SameValue
  decide

end HorizonQp.Linear
