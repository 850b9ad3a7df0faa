/-
  HorizonQp.Proofs.Dense.Optimality — what vanishing residuals say about a point.

  When all residuals vanish, `m` is zero and no slack is negative, the point is feasible.
  Whether it is optimal is a matter of the multipliers. The stationarity residual has them
  as `P (lam_lb - lam_ub) + Ct (lam_lg - lam_ug)`, which is the condition of optimality for
  multipliers that are not positive (`minimizes_of_nonpos`). With multipliers that are not
  negative, and a positive semidefinite `H`, the point is optimal exactly when every feasible
  point meets every bound whose multiplier is positive (`feasible_and_minimizes_iff`). A point
  where that fails is the costliest of an interval (`vanish_at_costliest`).
-/

import Mathlib.Algebra.Order.BigOperators.Group.Finset
import Mathlib.Algebra.Order.Field.Basic
import Mathlib.Tactic.Linarith
import HorizonQp.Proofs.Dense.Cost

namespace HorizonQp.DenseQp

open Finset (range)

variable {K : Type} [ExactField K] [LinearOrder K]

/-- The point meets every constraint. -/
structure Feasible (q : DenseQp K) (z : List K) : Prop where
  length : z.length = q.dims.nv
  equations : ∀ r < q.dims.ne, ∑ j ∈ range q.dims.nv, q.A.entry r j * z.getD j 0 = q.b.getD r 0
  bounds : ∀ k < q.dims.nb,
    q.bound .lb k ≤ z.getD (q.idxb.getD k 0) 0 ∧ z.getD (q.idxb.getD k 0) 0 ≤ q.bound .ub k
  general : ∀ k < q.dims.ng,
    q.bound .lg k ≤ ∑ i ∈ range q.dims.nv, q.Ct.entry i k * z.getD i 0 ∧
    ∑ i ∈ range q.dims.nv, q.Ct.entry i k * z.getD i 0 ≤ q.bound .ug k

/-- The Hessian, reflected from its lower triangle, is positive semidefinite. -/
def PosSemidef (q : DenseQp K) : Prop := ∀ x : Nat → K, 0 ≤ q.form x x

/-- No feasible point costs less. -/
def Minimizes (q : DenseQp K) (v : List K) : Prop := ∀ z, q.Feasible z → q.objective v ≤ q.objective z

theorem getD_nonneg {xs : List K} (h : ∀ x ∈ xs, 0 ≤ x) (i : Nat) : 0 ≤ xs.getD i 0 := by
  by_cases hi : i < xs.length
  · rw [List.getD_eq_getElem _ _ hi]
    exact h _ (List.getElem_mem hi)
  · rw [List.getD_eq_default _ _ (by omega)]

theorem getD_nonpos {xs : List K} (h : ∀ x ∈ xs, x ≤ 0) (i : Nat) : xs.getD i 0 ≤ 0 := by
  by_cases hi : i < xs.length
  · rw [List.getD_eq_getElem _ _ hi]
    exact h _ (List.getElem_mem hi)
  · rw [List.getD_eq_default _ _ (by omega)]

variable [IsStrictOrderedRing K] {q : DenseQp K} {it : DenseIterate K} {v z : List K}

/-! ## Feasible points -/

/-- Feasible points are those on the equations that leave no row a negative slack. -/
theorem feasible_iff :
    q.Feasible z ↔ z.length = q.dims.nv ∧
      (∀ r < q.dims.ne, ∑ j ∈ range q.dims.nv, q.A.entry r j * z.getD j 0 = q.b.getD r 0) ∧
      ∀ side, ∀ k < side.length q.dims, 0 ≤ q.slack z side k := by
  constructor
  · intro h
    refine ⟨h.length, h.equations, fun side k hk => ?_⟩
    cases side with
    | lb => exact sub_nonneg.mpr (h.bounds k hk).1
    | ub => exact sub_nonneg.mpr (h.bounds k hk).2
    | lg => exact sub_nonneg.mpr (h.general k hk).1
    | ug => exact sub_nonneg.mpr (h.general k hk).2
  · intro h
    rcases h with ⟨hl, heq, hs⟩
    exact {
      length := hl
      equations := heq
      bounds := fun k hk => ⟨sub_nonneg.mp (hs .lb k hk), sub_nonneg.mp (hs .ub k hk)⟩
      general := fun k hk => ⟨sub_nonneg.mp (hs .lg k hk), sub_nonneg.mp (hs .ug k hk)⟩ }

/-- Slacks that are not negative and account for every inequality row make the point feasible. -/
theorem feasible_of_vanish (h : q.Fits it) (ht : ∀ x ∈ it.t, 0 ≤ x) (hz : (q.residuals it).Vanish) :
    q.Feasible it.v := by
  refine feasible_iff.mpr ⟨h.v.symm, fun r hr => equations_eq h hz hr, fun side k hk => ?_⟩
  rw [slack_eq h hz side hk]
  exact getD_nonneg ht _

/-- With a point, every point between it and another feasible one. -/
theorem Feasible.between (hv : q.Feasible v) (hz : q.Feasible z) {s : K} (hs₀ : 0 ≤ s) (hs₁ : s ≤ 1) :
    q.Feasible (Linear.axpby (1 - s) v s z) := by
  obtain ⟨hlv, hev, hsv⟩ := feasible_iff.mp hv
  obtain ⟨hlz, hez, hsz⟩ := feasible_iff.mp hz
  refine feasible_iff.mpr ⟨length_between hlv hlz s, fun r hr => equations_between hlv hlz s (hev r hr) (hez r hr),
    fun side k hk => ?_⟩
  rw [slack_between hlv hlz]
  exact add_nonneg (mul_nonneg (sub_nonneg.mpr hs₁) (hsv side k hk)) (mul_nonneg hs₀ (hsz side k hk))

/-! ## Optimal points -/

theorem priced_nonneg (hlam : ∀ x ∈ it.lam, 0 ≤ x) (hz : q.Feasible z) (side : Side) {k : Nat}
    (hk : k < side.length q.dims) : 0 ≤ q.priced it.lam z side k :=
  mul_nonneg (getD_nonneg hlam _) ((feasible_iff.mp hz).2.2 side k hk)

theorem pricedSum_nonneg {lam : List K} (h : ∀ side, ∀ k < side.length q.dims, 0 ≤ q.priced lam z side k) :
    0 ≤ q.pricedSum lam z := by
  refine add_nonneg (Finset.sum_nonneg fun k hk => ?_) (Finset.sum_nonneg fun k hk => ?_)
  · have hk := Finset.mem_range.mp hk
    exact add_nonneg (h .lb k hk) (h .ub k hk)
  · have hk := Finset.mem_range.mp hk
    exact add_nonneg (h .lg k hk) (h .ug k hk)

theorem pricedSum_nonpos {lam : List K} (h : ∀ side, ∀ k < side.length q.dims, q.priced lam z side k ≤ 0) :
    q.pricedSum lam z ≤ 0 := by
  refine add_nonpos (Finset.sum_nonpos fun k hk => ?_) (Finset.sum_nonpos fun k hk => ?_)
  · have hk := Finset.mem_range.mp hk
    exact add_nonpos (h .lb k hk) (h .ub k hk)
  · have hk := Finset.mem_range.mp hk
    exact add_nonpos (h .lg k hk) (h .ug k hk)

/-- When no row has a negative price and they sum to nothing, every row has none. -/
theorem priced_eq_zero_of_sum {lam : List K} (h : ∀ side, ∀ k < side.length q.dims, 0 ≤ q.priced lam z side k)
    (h₀ : q.pricedSum lam z ≤ 0) : ∀ side, ∀ k < side.length q.dims, q.priced lam z side k = 0 := by
  have hb : ∀ k ∈ range q.dims.nb, 0 ≤ q.priced lam z .lb k + q.priced lam z .ub k := fun k hk =>
    add_nonneg (h .lb k (Finset.mem_range.mp hk)) (h .ub k (Finset.mem_range.mp hk))
  have hg : ∀ k ∈ range q.dims.ng, 0 ≤ q.priced lam z .lg k + q.priced lam z .ug k := fun k hk =>
    add_nonneg (h .lg k (Finset.mem_range.mp hk)) (h .ug k (Finset.mem_range.mp hk))
  obtain ⟨hb₀, hg₀⟩ := (add_eq_zero_iff_of_nonneg (Finset.sum_nonneg hb) (Finset.sum_nonneg hg)).mp
    (le_antisymm h₀ (pricedSum_nonneg h))
  rw [Finset.sum_eq_zero_iff_of_nonneg hb] at hb₀
  rw [Finset.sum_eq_zero_iff_of_nonneg hg] at hg₀
  have pair : ∀ {a b : K}, 0 ≤ a → 0 ≤ b → a + b = 0 → a = 0 ∧ b = 0 := fun ha hb hab =>
    (add_eq_zero_iff_of_nonneg ha hb).mp hab
  intro side k hk
  cases side with
  | lb => exact (pair (h .lb k hk) (h .ub k hk) (hb₀ k (Finset.mem_range.mpr hk))).1
  | ub => exact (pair (h .lb k hk) (h .ub k hk) (hb₀ k (Finset.mem_range.mpr hk))).2
  | lg => exact (pair (h .lg k hk) (h .ug k hk) (hg₀ k (Finset.mem_range.mpr hk))).1
  | ug => exact (pair (h .lg k hk) (h .ug k hk) (hg₀ k (Finset.mem_range.mpr hk))).2

/-- A point with the least cost leaves nothing to any price: otherwise a small step towards the
    point with the price would cost less. -/
theorem pricedSum_nonpos_of_minimizes (h : q.Fits it) (hm : ∀ x ∈ q.m, x = 0) (hr : (q.residuals it).Vanish)
    (hv : q.Feasible it.v) (hmin : q.Minimizes it.v) (hz : q.Feasible z) : q.pricedSum it.lam z ≤ 0 := by
  by_contra hpos
  have hpos : 0 < q.pricedSum it.lam z := not_le.mp hpos
  let P := q.pricedSum it.lam z
  let Q := q.form (fun i => z.getD i 0 - it.v.getD i 0) (fun i => z.getD i 0 - it.v.getD i 0)
  have hself : q.pricedSum it.lam it.v = 0 := pricedSum_eq_zero fun side k hk => priced_eq_zero h hm hr side hk
  have hstep : ∀ s : K, 0 ≤ s → s ≤ 1 → s * P ≤ 1 / 2 * (s * (s * Q)) := by
    intro s hs₀ hs₁
    have hb := hv.between hz hs₀ hs₁
    have hcost := hmin _ hb
    rw [objective_eq h hm hr two_ne_zero hb.equations, pricedSum_between hv.length hz.length, hself,
      form_between hv.length hz.length] at hcost
    linarith
  have hPQ : P ≤ 1 / 2 * Q := by simpa using hstep 1 zero_le_one le_rfl
  have hQ : 0 < Q := by linarith
  have hhalf := hstep (P / Q) (div_nonneg hpos.le hQ.le) ((div_le_one hQ).mpr (by linarith))
  rw [div_mul_cancel₀ _ hQ.ne'] at hhalf
  have hPP : 0 < P / Q * P := mul_pos (div_pos hpos hQ) hpos
  linarith

/-- Where all residuals vanish under multipliers and slacks that are not negative, the point is
    feasible, and it is optimal exactly when a positive multiplier only ever stands at a row
    that every feasible point meets with equality. -/
theorem feasible_and_minimizes_iff {w w' : DenseWorkspace K} (hm : ∀ x ∈ q.m, x = 0) (hH : q.PosSemidef)
    (hlam : ∀ x ∈ it.lam, 0 ≤ x) (ht : ∀ x ∈ it.t, 0 ≤ x) (hok : w.update q it = .ok w') (hr : w'.residuals.Vanish) :
    q.Feasible it.v ∧
    (q.Minimizes it.v ↔
      ∀ z, q.Feasible z → ∀ side, ∀ k < side.length q.dims,
        it.lam.getD (side.offset q.dims + k) 0 * q.slack z side k = 0) := by
  obtain ⟨-, h, rfl⟩ := DenseWorkspace.update_eq_ok.mp hok
  have hv := feasible_of_vanish h ht hr
  refine ⟨hv, fun hmin z hz => ?_, fun hrow z hz => ?_⟩
  · exact priced_eq_zero_of_sum (fun side k hk => priced_nonneg hlam hz side hk)
      (pricedSum_nonpos_of_minimizes h hm hr hv hmin hz)
  · have hcost := objective_eq h hm hr two_ne_zero hz.equations
    rw [pricedSum_eq_zero (hrow z hz)] at hcost
    have := hH fun i => z.getD i 0 - it.v.getD i 0
    linarith

/-- With the sign that the stationarity residual gives the multipliers, which is the one for
    multipliers that are not positive, vanishing residuals certify the point. -/
theorem minimizes_of_nonpos {w w' : DenseWorkspace K} (hm : ∀ x ∈ q.m, x = 0) (hH : q.PosSemidef)
    (hlam : ∀ x ∈ it.lam, x ≤ 0) (ht : ∀ x ∈ it.t, 0 ≤ x) (hok : w.update q it = .ok w') (hr : w'.residuals.Vanish) :
    q.Feasible it.v ∧ q.Minimizes it.v := by
  obtain ⟨-, h, rfl⟩ := DenseWorkspace.update_eq_ok.mp hok
  refine ⟨feasible_of_vanish h ht hr, fun z hz => ?_⟩
  have hcost := objective_eq h hm hr two_ne_zero hz.equations
  have hprice : q.pricedSum it.lam z ≤ 0 := pricedSum_nonpos fun side k hk =>
    mul_nonpos_of_nonpos_of_nonneg (getD_nonpos hlam _) ((feasible_iff.mp hz).2.2 side k hk)
  have := hH fun i => z.getD i 0 - it.v.getD i 0
  linarith

/-! ## The wrong end of an interval -/

/-- Minimise `z` over `0 ≤ z ≤ 1`. -/
def intervalQp : DenseQp ℚ where
  dims := ⟨1, 0, 1, 0⟩
  H := ⟨1, 1, [0]⟩
  g := [1]
  A := ⟨0, 1, []⟩
  b := []
  Ct := ⟨1, 0, []⟩
  idxb := [0]
  d := [0, -1]
  m := [0, 0]

/-- The point `1`, with a multiplier at its upper bound. -/
def topIterate : DenseIterate ℚ := ⟨[1], [], [0, 1], [1, 0]⟩

/-- Room for the residuals of the interval. -/
def intervalWork : DenseWorkspace ℚ := ⟨⟨1, 0, 1, 0⟩, ⟨[0], [], [0, 0], [0, 0], 0⟩⟩

theorem interval_update : intervalWork.update intervalQp topIterate = .ok intervalWork := by decide +kernel

theorem interval_vanish : intervalWork.residuals.Vanish where
  stationarity := by decide
  equations := by decide
  inequalities := by decide
  complementarity := by decide

/-- The cost is linear. -/
theorem interval_posSemidef : intervalQp.PosSemidef := by
  intro x
  have h₀ : intervalQp.hessian 0 0 = 0 := by decide +kernel
  show 0 ≤ ∑ i ∈ range 1, x i * ∑ j ∈ range 1, intervalQp.hessian i j * x j
  rw [Finset.sum_range_one, Finset.sum_range_one, h₀, zero_mul, mul_zero]

theorem bottom_feasible : intervalQp.Feasible [0] where
  length := rfl
  equations := by decide +kernel
  bounds := by decide +kernel
  general := by decide +kernel

/-- At the top the point `0` is feasible and leaves the upper bound, whose multiplier is
    positive. -/
theorem top_feasible_not_minimal : intervalQp.Feasible topIterate.v ∧ ¬ intervalQp.Minimizes topIterate.v := by
  obtain ⟨hv, hiff⟩ := feasible_and_minimizes_iff (by decide) interval_posSemidef (by decide) (by decide) interval_update
    interval_vanish
  refine ⟨hv, fun hmin => ?_⟩
  have h₀ := hiff.mp hmin [0] bottom_feasible .ub 0 (by decide)
  exact absurd h₀ (by decide +kernel)

/-- All residuals vanish at the costliest point of the interval, under multipliers and slacks
    that are not negative. -/
theorem vanish_at_costliest :
    (∀ x ∈ intervalQp.m, x = 0) ∧ intervalQp.PosSemidef ∧ (∀ x ∈ topIterate.lam, 0 ≤ x) ∧ (∀ x ∈ topIterate.t, 0 ≤ x) ∧
    intervalWork.update intervalQp topIterate = .ok intervalWork ∧ intervalWork.residuals.Vanish ∧
    ¬ intervalQp.Minimizes topIterate.v := by
  refine ⟨by decide, interval_posSemidef, by decide, by decide, interval_update, interval_vanish, fun hmin => ?_⟩
  exact absurd (hmin [0] bottom_feasible) (by decide +kernel)

end HorizonQp.DenseQp
