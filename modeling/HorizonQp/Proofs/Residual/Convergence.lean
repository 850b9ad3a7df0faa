/-
  HorizonQp.Proofs.Residual.Convergence — what convergence asks of the entries.

  The norm of a vector is a running maximum of absolute values that ends at the first value
  that is no number (`Linear.normFrom`). Up to there every step keeps what the rule is
  about: the maximum so far is a number, and it is within a bound exactly when all entries
  so far are (`le_normFrom_iff`). A good tolerance is a finite number that zero is within
  (`isGoodTolerance_iff`), so a vector without entries is within it.

  Together: residuals have converged for tolerances that pass `validate` exactly when every
  entry of every vector and the gap is within its tolerance (`converged_iff_within`). An
  entry that is infinite or no number is within no tolerance, wherever it stands and
  whatever is before and behind it.
-/

import HorizonQp.Residual.Tolerances
import HorizonQp.Proofs.Numbers.Comparison

namespace HorizonQp

open FloatingPoint (nan magnitude isNaN isFinite lt le)

variable {α : Type} [FloatingPoint α]

/-! ## The norm of a vector -/

section Norm

variable [LawfulFloatingPoint α]

theorem le_normFrom_iff {out bound : α} (hout : isNaN out = false) {xs : List α} :
    le (Linear.normFrom out xs) bound = true ↔ le out bound = true ∧ ∀ x ∈ xs, le (magnitude x) bound = true := by
  induction xs generalizing out with
  | nil => simp [Linear.normFrom]
  | cons x xs ih =>
    rw [Linear.normFrom, List.forall_mem_cons]
    cases hx : isNaN (magnitude x) with
    | true =>
      -- the norm is no number then, and neither is this entry within the bound
      rw [if_pos rfl, FloatingPoint.le_eq_false_of_left LawfulFloatingPoint.isNaN_nan,
        FloatingPoint.le_eq_false_of_left hx]
      simp
    | false =>
      rw [if_neg Bool.false_ne_true, ih (FloatingPoint.isNaN_greatest hout hx), FloatingPoint.greatest_le_iff hout hx,
        and_assoc]

theorem le_normInf_iff {bound : α} (hbound : le 0 bound = true) {xs : List α} :
    le (Linear.normInf xs) bound = true ↔ ∀ x ∈ xs, le (magnitude x) bound = true := by
  rw [Linear.normInf, le_normFrom_iff LawfulFloatingPoint.isNaN_zero]
  exact and_iff_right hbound

end Norm

/-! ## Tolerances -/

theorem checkTolerances_eq_ok {named : List (String × α)} :
    checkTolerances named = .ok () ↔ ∀ entry ∈ named, isGoodTolerance entry.2 = true := by
  unfold checkTolerances
  split
  case h_1 field x hfind =>
    have hbad := List.find?_some hfind
    have hmem := List.mem_of_find?_eq_some hfind
    simp only [Bool.not_eq_true'] at hbad
    simp only [reduceCtorEq, false_iff]
    intro hall
    rw [hall _ hmem] at hbad
    cases hbad
  case h_2 hfind => simpa using hfind

theorem Tolerances.validate_eq_ok {t : Tolerances α} :
    t.validate = .ok () ↔ isGoodTolerance t.stat = true ∧ isGoodTolerance t.eq = true ∧
      isGoodTolerance t.ineq = true ∧ isGoodTolerance t.comp = true := by
  rw [validate, checkTolerances_eq_ok, named]
  simp only [List.forall_mem_cons, List.not_mem_nil, false_imp_iff, implies_true, and_true]

variable [LawfulFloatingPoint α]

theorem isGoodTolerance_iff {x : α} : isGoodTolerance x = true ↔ isFinite x = true ∧ le 0 x = true := by
  rw [isGoodTolerance, Bool.and_eq_true, Bool.not_eq_true']
  refine and_congr_right fun hfin => ?_
  have hx := LawfulFloatingPoint.isNaN_of_isFinite hfin
  constructor
  · intro hlt
    exact FloatingPoint.le_of_not_lt hx LawfulFloatingPoint.isNaN_zero (Bool.eq_false_iff.mp hlt)
  · intro hle
    rw [Bool.eq_false_iff]
    intro hlt
    rw [(LawfulFloatingPoint.lt_iff.mp hlt).2.2] at hle
    cases hle

/-- The tolerances that nobody gives are good ones. -/
theorem default_validates :
    (Tolerances.default : Tolerances Binary.Double).validate = .ok () ∧
      (Tolerances.default : Tolerances Binary.Single).validate = .ok () :=
  ⟨Tolerances.validate_eq_ok.mpr (by decide +kernel), Tolerances.validate_eq_ok.mpr (by decide +kernel)⟩

/-! ## Convergence -/

namespace Residuals

/-- Every entry is within the tolerance for it in absolute value, and so is the gap as it is. -/
structure Within (r : Residuals α) (tols : Tolerances α) : Prop where
  stationarity : ∀ x ∈ r.stationarity, le (magnitude x) tols.stat = true
  equations : ∀ x ∈ r.equations, le (magnitude x) tols.eq = true
  inequalities : ∀ x ∈ r.inequalities, le (magnitude x) tols.ineq = true
  complementarity : ∀ x ∈ r.complementarity, le (magnitude x) tols.comp = true
  mu : le r.mu tols.comp = true

/-- The entries of all four vectors. -/
def entries (r : Residuals α) : List α :=
  r.stationarity ++ r.equations ++ r.inequalities ++ r.complementarity

theorem converged_iff {r : Residuals α} {tols : Tolerances α} (h : tols.validate = .ok ()) :
    r.norms.converged tols = true ↔ r.Within tols := by
  obtain ⟨hstat, heq, hineq, hcomp⟩ := Tolerances.validate_eq_ok.mp h
  simp only [norms, Norms.converged, Bool.and_eq_true, le_normInf_iff (isGoodTolerance_iff.mp hstat).2,
    le_normInf_iff (isGoodTolerance_iff.mp heq).2, le_normInf_iff (isGoodTolerance_iff.mp hineq).2,
    le_normInf_iff (isGoodTolerance_iff.mp hcomp).2]
  constructor
  · rintro ⟨⟨⟨⟨hg, hb⟩, hd⟩, hm⟩, hmu⟩
    exact ⟨hg, hb, hd, hm, hmu⟩
  · intro w
    exact ⟨⟨⟨⟨w.stationarity, w.equations⟩, w.inequalities⟩, w.complementarity⟩, w.mu⟩

/-- What is within good tolerances is finite. -/
theorem Within.isFinite_entries {r : Residuals α} {tols : Tolerances α} (w : r.Within tols)
    (h : tols.validate = .ok ()) : ∀ x ∈ r.entries, isFinite x = true := by
  obtain ⟨hstat, heq, hineq, hcomp⟩ := Tolerances.validate_eq_ok.mp h
  have bounded {xs : List α} {bound : α} (hbound : isGoodTolerance bound = true)
      (hxs : ∀ x ∈ xs, le (magnitude x) bound = true) : ∀ x ∈ xs, isFinite x = true := fun x hx =>
    LawfulFloatingPoint.isFinite_of_magnitude_le (hxs x hx) (isGoodTolerance_iff.mp hbound).1
  simp only [entries, List.forall_mem_append]
  exact ⟨⟨⟨bounded hstat w.stationarity, bounded heq w.equations⟩, bounded hineq w.inequalities⟩,
    bounded hcomp w.complementarity⟩

/-- Convergence is decided by every entry: the residuals of a workspace of either kind have
    converged exactly when all of them are within good tolerances, and so never with an
    infinite entry, one that is no number, or a gap that is none. -/
theorem converged_iff_within {tols : Tolerances α} (h : tols.validate = .ok ()) (r : Residuals α) :
    (r.norms.converged tols = true ↔ r.Within tols) ∧
      ((∃ x ∈ r.entries, isFinite x = false) ∨ isNaN r.mu = true → r.norms.converged tols = false) := by
  refine ⟨converged_iff h, fun hbad => ?_⟩
  rw [Bool.eq_false_iff]
  intro hc
  have w := (converged_iff h).mp hc
  rcases hbad with ⟨x, hx, hinf⟩ | hmu
  · rw [w.isFinite_entries h x hx] at hinf
    cases hinf
  · rw [(LawfulFloatingPoint.numbers_of_le w.mu).1] at hmu
    cases hmu

/-- With tolerances that are negative zeros, zeros of either sign and no entries converge
    under a negative gap, and a value that is no number behind a greater one does not. -/
theorem converged_iff_within_zero :
    let z : Binary.Double := -0
    let tols : Tolerances Binary.Double := ⟨z, z, 0, 0⟩
    tols.validate = .ok () ∧
      (⟨[0, z], [], [z], [0], -1⟩ : Residuals Binary.Double).norms.converged tols = true ∧
      (⟨[], [0], [1, nan, 0], [], 0⟩ : Residuals Binary.Double).norms.converged ⟨1, 1, 1, 1⟩ = false := by
  intro z tols
  have hzero : tols.validate = .ok () := Tolerances.validate_eq_ok.mpr (by decide)
  have hone : (⟨1, 1, 1, 1⟩ : Tolerances Binary.Double).validate = .ok () := Tolerances.validate_eq_ok.mpr (by decide)
  refine ⟨hzero, (converged_iff_within hzero _).1.mpr ?_, (converged_iff_within hone _).2 (.inl ⟨nan, ?_, ?_⟩)⟩
  · constructor <;> decide
  · decide
  · decide

end Residuals

end HorizonQp
