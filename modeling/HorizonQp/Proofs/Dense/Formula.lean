/-
  HorizonQp.Proofs.Dense.Formula — the residuals of a dense problem, entry by entry.

  Over a field the kernels give the mathematical residuals, with `hessian` the symmetric
  matrix whose lower triangle is held, `constraint` the value of a bounded variable or of a
  general constraint, and `bound` what it is compared with, in its own sign.
-/

import HorizonQp.Proofs.Exact.Kernels
import HorizonQp.Proofs.Dense.Update

namespace HorizonQp

open Linear (Matrix axpby scatterAdd mulDot)
open Finset (range)

/-! ## Sides -/

namespace Side

/-- The sign that the entries of a side have in the vectors of inequality rows. -/
def sign {α : Type} [One α] [Neg α] (side : Side) : α := if side.isUpper then -1 else 1

variable {α : Type} (d : DenseDims) (side : Side)

theorem part_entry (x : List α) (a : α) {k : Nat} (hk : k < side.length d) :
    (side.part d x).getD k a = x.getD (side.offset d + k) a := by
  rw [part, Linear.getD_take _ _ hk, Linear.getD_drop]

/-- Every inequality row is a row of one of the sides. -/
theorem exists_row {i : Nat} (hi : i < d.nc) : ∃ side : Side, ∃ k < side.length d, i = side.offset d + k := by
  have hi : i < 2 * (d.nb + d.ng) := Nat.lt_of_lt_of_le hi (Nat.mod_le ..)
  by_cases h₁ : i < d.nb
  · exact ⟨.lb, i, h₁, by simp [offset]⟩
  by_cases h₂ : i < d.nb + d.ng
  · exact ⟨.lg, i - d.nb, by simp only [length]; omega, by simp only [offset]; omega⟩
  by_cases h₃ : i < 2 * d.nb + d.ng
  · exact ⟨.ub, i - (d.nb + d.ng), by simp only [length]; omega, by simp only [offset]; omega⟩
  · exact ⟨.ug, i - (2 * d.nb + d.ng), by simp only [length]; omega, by simp only [offset]; omega⟩

end Side

/-! ## Residuals -/

namespace DenseQp

variable {K : Type} [ExactField K]

/-- The value at `z` of constraint `k` of a side. -/
def constraint (q : DenseQp K) (z : List K) (side : Side) (k : Nat) : K :=
  match side with
  | .lb | .ub => z.getD (q.idxb.getD k 0) 0
  | .lg | .ug => ∑ i ∈ range q.dims.nv, q.Ct.entry i k * z.getD i 0

/-- Bound `k` of a side, with its own sign. -/
def bound (q : DenseQp K) (side : Side) (k : Nat) : K := (signed side (side.part q.dims q.d)).getD k 0

/-- The difference of the multipliers of two sides. -/
def net (q : DenseQp K) (lam : List K) (low up : Side) (k : Nat) : K :=
  lam.getD (low.offset q.dims + k) 0 - lam.getD (up.offset q.dims + k) 0

/-- Entry `(i, j)` of the symmetric matrix whose lower triangle is held. -/
def hessian (q : DenseQp K) (i j : Nat) : K := (Linear.View.symmetric .lower).entry q.H i j

variable {q : DenseQp K} {it : DenseIterate K}

theorem bound_eq (h : q.Fits it) (side : Side) {k : Nat} (hk : k < side.length q.dims) :
    q.bound side k = side.sign * q.d.getD (side.offset q.dims + k) 0 := by
  have hl : k < (side.part q.dims q.d).length := by rwa [side.length_part h.counted h.d.symm]
  rw [bound, signed, Side.sign]
  split
  · rw [Linear.getD_map_lt _ 0 0 hl, Side.part_entry _ _ _ _ hk, neg_one_mul]
  · rw [Side.part_entry _ _ _ _ hk, one_mul]

variable [DecidableEq K]

theorem multipliers_entry (h : q.Fits it) (low up : Side) (hs : low.length q.dims = up.length q.dims) {k : Nat}
    (hk : k < up.length q.dims) :
    (q.multipliers it low up).getD k 0 = q.net it.lam low up k := by
  have hl := low.length_part h.counted h.lam.symm
  have hu := up.length_part h.counted h.lam.symm
  rw [multipliers, net, Linear.axpby_entry _ _ (by omega), Side.part_entry _ _ _ _ (hs ▸ hk),
    Side.part_entry _ _ _ _ hk]
  ring

theorem costs_entry (h : q.Fits it) {i : Nat} (hi : i < q.dims.nv) :
    (q.costs it).getD i 0 =
      ∑ j ∈ range q.dims.nv, q.hessian i j * it.v.getD j 0 + q.g.getD i 0
        - ∑ r ∈ range q.dims.ne, q.A.entry r i * it.pi.getD r 0 := by
  have hg : i < q.g.length := h.g ▸ hi
  rw [costs, Matrix.transposedProduct_entry _ _ _ (by rw [h.A_rows, h.pi]) (by rwa [h.A_cols])
      (by rwa [Matrix.length_symmetricProduct]),
    Matrix.symmetricProduct_entry _ _ _ _ (by rw [h.H_cols, h.v]) (h.H_cols ▸ h.H_rows) hg (by rwa [h.H_cols]),
    h.H_cols, ← h.pi]
  simp only [hessian]
  ring

theorem stationarity_entry (h : q.Fits it) {i : Nat} (hi : i < q.dims.nv) :
    (q.stationarity it).getD i 0 =
      ∑ j ∈ range q.dims.nv, q.hessian i j * it.v.getD j 0 + q.g.getD i 0
        - ∑ r ∈ range q.dims.ne, q.A.entry r i * it.pi.getD r 0
        + (∑ k ∈ range q.dims.nb, if q.idxb.getD k 0 = i then q.net it.lam .lb .ub k else 0)
        + ∑ k ∈ range q.dims.ng, q.Ct.entry i k * q.net it.lam .lg .ug k := by
  have hb : (q.multipliers it .lb .ub).length = q.idxb.length := by
    rw [q.length_multipliers h.counted h.lam .lb .ub rfl, ← h.idxb]
    rfl
  have hg : (q.multipliers it .lg .ug).length = q.dims.ng := q.length_multipliers h.counted h.lam .lg .ug rfl
  have hc : (q.costs it).length = q.dims.nv := (q.length_costs it (h.A_cols.trans h.g)).trans h.g.symm
  rw [stationarity, Matrix.product_entry h.Ct_filled _ _ (by rw [hg, h.Ct_cols])
      (by rw [Linear.length_scatterAdd, hc, h.Ct_rows]) (by rwa [Linear.length_scatterAdd, hc]),
    Linear.scatterAdd_entry _ hb (by rwa [hc]), costs_entry h hi, h.Ct_cols, ← h.idxb, one_mul, one_mul, add_comm]
  congr 1
  · congr 1
    refine Finset.sum_congr rfl fun k hk => ?_
    rw [multipliers_entry h .lb .ub rfl (Finset.mem_range.mp hk), one_mul]
  · refine Finset.sum_congr rfl fun k hk => ?_
    rw [multipliers_entry h .lg .ug rfl (Finset.mem_range.mp hk)]

theorem equations_entry (h : q.Fits it) {r : Nat} (hr : r < q.dims.ne) :
    (q.equations it).getD r 0 = ∑ j ∈ range q.dims.nv, q.A.entry r j * it.v.getD j 0 - q.b.getD r 0 := by
  rw [equations, Matrix.product_entry h.A_filled _ _ (by rw [h.A_cols, h.v]) (by rw [h.A_rows, h.b])
    (by rwa [← h.b]), h.A_cols]
  ring

theorem negatedValues_entry (h : q.Fits it) (side : Side) {k : Nat} (hk : k < side.length q.dims) :
    (q.negatedValues it side).getD k 0 = -q.constraint it.v side k := by
  cases side with
  | lb | ub =>
    rw [negatedValues, Linear.gather_entry _ _ (by rwa [← h.idxb]), neg_one_mul]
    rfl
  | lg | ug =>
    rw [negatedValues, Matrix.transposedProduct_entry _ _ _ (by rw [h.Ct_rows, h.v]) (by rwa [h.Ct_cols])
      (by rwa [List.length_replicate]), zero_mul, add_zero, neg_one_mul, ← h.v]
    rfl

theorem part_inequalities (h : q.Fits it) (side : Side) :
    side.part q.dims (q.inequalities it) = q.inequalityRows it side (q.negatedValues it side) :=
  side.part_append q.dims (length_inequalityRows h)

/-- An inequality row vanishes when its slack is the distance of the constraint's value from
    the bound. -/
theorem inequalities_entry (h : q.Fits it) (side : Side) {k : Nat} (hk : k < side.length q.dims) :
    (q.inequalities it).getD (side.offset q.dims + k) 0 =
      -q.constraint it.v side k + q.bound side k +
        side.sign * it.t.getD (side.offset q.dims + k) 0 := by
  have hd := side.length_part h.counted h.d.symm
  have ht := side.length_part h.counted h.t.symm
  have hv := length_negatedValues h side
  rw [← Side.part_entry _ _ _ _ hk, part_inequalities h, inequalityRows, bound_eq h side hk, Side.sign,
    Linear.axpby_entry _ _ (by rw [Linear.length_axpby] <;> omega), Linear.axpby_entry _ _ (by omega),
    negatedValues_entry h side hk, Side.part_entry _ _ _ _ hk, Side.part_entry _ _ _ _ hk]
  ring

theorem complementarity_entry (h : q.Fits it) (i : Nat) :
    (q.complementarity it).getD i 0 = it.lam.getD i 0 * it.t.getD i 0 - q.m.getD i 0 := by
  have hl := Linear.length_mul (h.lam.symm.trans h.t)
  rw [complementarity, mulDot, Linear.axpby_entry _ _ (by rw [hl, ← h.m, h.t]),
    Linear.mul_entry (h.lam.symm.trans h.t)]
  ring

theorem gap_eq (h : q.Fits it) :
    q.gap it = (∑ i ∈ range q.dims.nc, it.lam.getD i 0 * it.t.getD i 0) / (q.dims.nc : K) := by
  have hl := Linear.length_mul (h.lam.symm.trans h.t)
  have hsum : (mulDot it.lam it.t).2 = ∑ i ∈ range q.dims.nc, it.lam.getD i 0 * it.t.getD i 0 := by
    show Linear.sum (Linear.mul it.lam it.t) = _
    rw [Linear.sum_eq, Linear.list_sum_eq (hl.trans h.t.symm).le]
    exact Finset.sum_congr rfl fun i _ => Linear.mul_entry (h.lam.symm.trans h.t) i
  rw [gap, hsum]
  split
  · rfl
  · rw [show q.dims.nc = 0 by omega, Finset.sum_range_zero, zero_div]

end DenseQp

end HorizonQp
