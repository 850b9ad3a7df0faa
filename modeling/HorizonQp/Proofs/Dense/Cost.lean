/-
  HorizonQp.Proofs.Dense.Cost — the cost of other points, where the residuals vanish.

  The cost of a point is its own second order expansion around any other
  (`objective_expand`). Where all residuals vanish and `m` is zero, the slope towards a point
  on the equations is made of the multipliers and the slacks of that point (`gradient_dot`).
  The multipliers enter with the sign of the stationarity residual,
  `P (lam_lb - lam_ub) + Ct (lam_lg - lam_ug)`, so the price of the slacks is taken off the
  cost (`objective_eq`).
-/

import Mathlib.Tactic.LinearCombination
import HorizonQp.Proofs.Dense.Formula

namespace HorizonQp

open Linear (axpby)
open Finset (range)

/-- Every residual is zero. The gap is not asked for. -/
structure Residuals.Vanish {K : Type} [Zero K] (r : Residuals K) : Prop where
  stationarity : ∀ x ∈ r.stationarity, x = 0
  equations : ∀ x ∈ r.equations, x = 0
  inequalities : ∀ x ∈ r.inequalities, x = 0
  complementarity : ∀ x ∈ r.complementarity, x = 0

namespace DenseQp

section Problem

variable {K : Type} [ExactField K]

/-- The value at `x` and `y` of the bilinear form of the Hessian. -/
def form (q : DenseQp K) (x y : Nat → K) : K :=
  ∑ i ∈ range q.dims.nv, x i * ∑ j ∈ range q.dims.nv, q.hessian i j * y j

/-- The cost `1/2 z'H z + g'z`. -/
def objective (q : DenseQp K) (z : List K) : K :=
  1 / 2 * q.form (z.getD · 0) (z.getD · 0) + ∑ i ∈ range q.dims.nv, q.g.getD i 0 * z.getD i 0

/-- How far the constraint is inside its bound. -/
def slack (q : DenseQp K) (z : List K) (side : Side) (k : Nat) : K :=
  if side.isUpper then q.bound side k - q.constraint z side k else q.constraint z side k - q.bound side k

/-- A multiplier times the slack that the point leaves its row. -/
def priced (q : DenseQp K) (lam z : List K) (side : Side) (k : Nat) : K :=
  lam.getD (side.offset q.dims + k) 0 * q.slack z side k

/-- The sum of `priced` over all inequality rows. -/
def pricedSum (q : DenseQp K) (lam z : List K) : K :=
  ∑ k ∈ range q.dims.nb, (q.priced lam z .lb k + q.priced lam z .ub k) +
    ∑ k ∈ range q.dims.ng, (q.priced lam z .lg k + q.priced lam z .ug k)

end Problem

/-! ## The cost around a point -/

section Cost

variable {K : Type} [ExactField K] (q : DenseQp K)

theorem hessian_comm (i j : Nat) : q.hessian i j = q.hessian j i := Linear.View.symmetric_entry_comm q.H

theorem form_comm (x y : Nat → K) : q.form x y = q.form y x := Linear.sum_form_comm _ q.hessian_comm x y

theorem form_add (x y z : Nat → K) : q.form x (fun i => y i + z i) = q.form x y + q.form x z := by
  simp only [form, mul_add, Finset.sum_add_distrib]

theorem form_smul (s : K) (x y : Nat → K) : q.form x (fun i => s * y i) = s * q.form x y := by
  simp only [form, Finset.mul_sum]
  refine Finset.sum_congr rfl fun i _ => Finset.sum_congr rfl fun j _ => ?_
  ring

theorem form_add_self (x y : Nat → K) :
    q.form (fun i => x i + y i) (fun i => x i + y i) = q.form x x + 2 * q.form y x + q.form y y := by
  rw [form_add, q.form_comm _ x, q.form_comm _ y, form_add, form_add, q.form_comm x y]
  ring

/-- The cost is its own second order expansion. -/
theorem objective_expand (v z : List K) (h2 : (2 : K) ≠ 0) :
    let δ := fun i => z.getD i 0 - v.getD i 0
    q.objective z = q.objective v
      + ∑ i ∈ range q.dims.nv,
          (∑ j ∈ range q.dims.nv, q.hessian i j * v.getD j 0 + q.g.getD i 0) * δ i
      + 1 / 2 * q.form δ δ := by
  intro δ
  have hz : (fun i => z.getD i 0) = fun i => v.getD i 0 + δ i := by
    funext i
    ring
  have hlin : ∑ i ∈ range q.dims.nv, (∑ j ∈ range q.dims.nv, q.hessian i j * v.getD j 0 + q.g.getD i 0) * δ i =
      q.form δ (v.getD · 0) + (∑ i ∈ range q.dims.nv, q.g.getD i 0 * z.getD i 0 -
        ∑ i ∈ range q.dims.nv, q.g.getD i 0 * v.getD i 0) := by
    rw [form, ← Finset.sum_sub_distrib, ← Finset.sum_add_distrib]
    refine Finset.sum_congr rfl fun i _ => ?_
    ring
  have hhalf : ∀ x : K, 1 / 2 * (2 * x) = x := fun x => by rw [one_div, inv_mul_cancel_left₀ h2]
  rw [objective, objective, hlin, hz, form_add_self, mul_add, mul_add, hhalf]
  ring

end Cost

/-! ## The price of the slacks -/

section Prices

variable {K : Type} [ExactField K] {q : DenseQp K}

theorem pricedSum_eq_zero {lam z : List K} (h : ∀ side, ∀ k < side.length q.dims, q.priced lam z side k = 0) :
    q.pricedSum lam z = 0 := by
  rw [pricedSum, Finset.sum_eq_zero, Finset.sum_eq_zero, add_zero]
  · intro k hk
    have hk := Finset.mem_range.mp hk
    rw [h .lg k hk, h .ug k hk, add_zero]
  · intro k hk
    have hk := Finset.mem_range.mp hk
    rw [h .lb k hk, h .ub k hk, add_zero]

/-- Moving a point changes the sum by what the stationarity residual has for the multipliers. -/
theorem pricedSum_sub (q : DenseQp K) (lam v z : List K) :
    q.pricedSum lam z - q.pricedSum lam v =
      ∑ k ∈ range q.dims.nb, q.net lam .lb .ub k * (z.getD (q.idxb.getD k 0) 0 - v.getD (q.idxb.getD k 0) 0) +
      ∑ k ∈ range q.dims.ng, q.net lam .lg .ug k *
        ∑ i ∈ range q.dims.nv, q.Ct.entry i k * (z.getD i 0 - v.getD i 0) := by
  simp only [pricedSum, priced, slack, constraint, net, Side.isUpper, if_true, if_false, Bool.false_eq_true, mul_sub,
    Finset.sum_sub_distrib, Finset.sum_add_distrib, sub_mul]
  ring

end Prices

/-! ## Where the residuals vanish -/

section Vanishing

variable {K : Type} [ExactField K]

variable [DecidableEq K] {q : DenseQp K} {it : DenseIterate K}

theorem slack_eq (h : q.Fits it) (hz : (q.residuals it).Vanish) (side : Side) {k : Nat} (hk : k < side.length q.dims) :
    q.slack it.v side k = it.t.getD (side.offset q.dims + k) 0 := by
  have h₀ : (q.inequalities it).getD (side.offset q.dims + k) 0 = 0 := Linear.getD_eq_zero hz.inequalities _
  rw [inequalities_entry h side hk] at h₀
  rw [slack]
  split <;> rename_i hs <;> simp only [Side.sign, hs, if_true, if_false, Bool.false_eq_true] at h₀
  · linear_combination h₀
  · linear_combination -h₀

theorem priced_eq_zero (h : q.Fits it) (hm : ∀ x ∈ q.m, x = 0) (hz : (q.residuals it).Vanish) (side : Side) {k : Nat}
    (hk : k < side.length q.dims) : q.priced it.lam it.v side k = 0 := by
  have h₀ : (q.complementarity it).getD (side.offset q.dims + k) 0 = 0 := Linear.getD_eq_zero hz.complementarity _
  rw [complementarity_entry h, Linear.getD_eq_zero hm, sub_zero] at h₀
  rw [priced, slack_eq h hz side hk, h₀]

theorem equations_eq (h : q.Fits it) (hz : (q.residuals it).Vanish) {r : Nat} (hr : r < q.dims.ne) :
    ∑ j ∈ range q.dims.nv, q.A.entry r j * it.v.getD j 0 = q.b.getD r 0 := by
  have h₀ : (q.equations it).getD r 0 = 0 := Linear.getD_eq_zero hz.equations _
  rw [equations_entry h hr] at h₀
  exact sub_eq_zero.mp h₀

theorem gradient_eq (h : q.Fits it) (hz : (q.residuals it).Vanish) {i : Nat} (hi : i < q.dims.nv) :
    ∑ j ∈ range q.dims.nv, q.hessian i j * it.v.getD j 0 + q.g.getD i 0 =
      ∑ r ∈ range q.dims.ne, q.A.entry r i * it.pi.getD r 0
      - ∑ k ∈ range q.dims.nb, (if q.idxb.getD k 0 = i then 1 else 0) * q.net it.lam .lb .ub k
      - ∑ k ∈ range q.dims.ng, q.Ct.entry i k * q.net it.lam .lg .ug k := by
  have h₀ : (q.stationarity it).getD i 0 = 0 := Linear.getD_eq_zero hz.stationarity _
  rw [stationarity_entry h hi] at h₀
  simp only [ite_mul, one_mul, zero_mul]
  linear_combination h₀

/-- The slope of the cost towards a point on the equations is the price of its slacks, with the
    other sign. -/
theorem gradient_dot (h : q.Fits it) (hm : ∀ x ∈ q.m, x = 0) (hz : (q.residuals it).Vanish) {z : List K}
    (heq : ∀ r < q.dims.ne, ∑ j ∈ range q.dims.nv, q.A.entry r j * z.getD j 0 = q.b.getD r 0) :
    ∑ i ∈ range q.dims.nv, (∑ j ∈ range q.dims.nv, q.hessian i j * it.v.getD j 0 + q.g.getD i 0) *
      (z.getD i 0 - it.v.getD i 0) = -q.pricedSum it.lam z := by
  have hself : q.pricedSum it.lam it.v = 0 := pricedSum_eq_zero fun side k hk => priced_eq_zero h hm hz side hk
  have hsub := q.pricedSum_sub it.lam it.v z
  rw [hself, sub_zero] at hsub
  -- the direction stays on the equations
  have hA : ∀ r ∈ range q.dims.ne,
      it.pi.getD r 0 * ∑ i ∈ range q.dims.nv, q.A.entry r i * (z.getD i 0 - it.v.getD i 0) = 0 := by
    intro r hr
    have hr := Finset.mem_range.mp hr
    simp only [mul_sub, Finset.sum_sub_distrib]
    rw [heq r hr, equations_eq h hz hr, sub_self]
  have hP : ∀ k ∈ range q.dims.nb,
      q.net it.lam .lb .ub k *
        ∑ i ∈ range q.dims.nv, (if q.idxb.getD k 0 = i then 1 else 0) * (z.getD i 0 - it.v.getD i 0) =
      q.net it.lam .lb .ub k * (z.getD (q.idxb.getD k 0) 0 - it.v.getD (q.idxb.getD k 0) 0) := by
    intro k hk
    simp only [ite_mul, one_mul, zero_mul]
    rw [Finset.sum_ite_eq, if_pos (Finset.mem_range.mpr (h.bounded_lt (Finset.mem_range.mp hk)))]
  rw [Finset.sum_congr rfl fun i hi => by rw [gradient_eq h hz (Finset.mem_range.mp hi)]]
  simp only [sub_mul, Finset.sum_sub_distrib]
  rw [Linear.sum_rows_mul, Linear.sum_rows_mul, Linear.sum_rows_mul, Finset.sum_eq_zero hA, Finset.sum_congr rfl hP, hsub]
  ring

/-- What another point on the equations costs more. -/
theorem objective_eq (h : q.Fits it) (hm : ∀ x ∈ q.m, x = 0) (hz : (q.residuals it).Vanish) (h2 : (2 : K) ≠ 0)
    {z : List K} (heq : ∀ r < q.dims.ne, ∑ j ∈ range q.dims.nv, q.A.entry r j * z.getD j 0 = q.b.getD r 0) :
    q.objective z = q.objective it.v - q.pricedSum it.lam z +
      1 / 2 * q.form (fun i => z.getD i 0 - it.v.getD i 0) (fun i => z.getD i 0 - it.v.getD i 0) := by
  rw [q.objective_expand it.v z h2, gradient_dot h hm hz heq, sub_eq_add_neg]

end Vanishing

/-! ## Between two points -/

section Between

variable {K : Type} [ExactField K] {q : DenseQp K} {v z : List K}
variable (hv : v.length = q.dims.nv) (hz : z.length = q.dims.nv) (s : K)

include hv hz

theorem length_between : (axpby (1 - s) v s z).length = q.dims.nv := by
  rw [Linear.length_axpby (hv.trans hz.symm), hz]

theorem constraint_between (side : Side) (k : Nat) :
    q.constraint (axpby (1 - s) v s z) side k = (1 - s) * q.constraint v side k + s * q.constraint z side k := by
  have he := Linear.axpby_entry (1 - s) s (hv.trans hz.symm)
  cases side with
  | lb | ub => exact he _
  | lg | ug =>
    simp only [constraint, he, Finset.mul_sum, ← Finset.sum_add_distrib]
    exact Finset.sum_congr rfl fun i _ => by ring

theorem slack_between (side : Side) (k : Nat) :
    q.slack (axpby (1 - s) v s z) side k = (1 - s) * q.slack v side k + s * q.slack z side k := by
  simp only [slack, constraint_between hv hz]
  split <;> ring

theorem pricedSum_between (lam : List K) :
    q.pricedSum lam (axpby (1 - s) v s z) = (1 - s) * q.pricedSum lam v + s * q.pricedSum lam z := by
  have hrow : ∀ side k, q.priced lam (axpby (1 - s) v s z) side k =
      (1 - s) * q.priced lam v side k + s * q.priced lam z side k := by
    intro side k
    simp only [priced, slack_between hv hz]
    ring
  simp only [pricedSum, hrow, Finset.sum_add_distrib, ← Finset.mul_sum]
  ring

theorem equations_between {r : Nat} (hrv : ∑ j ∈ range q.dims.nv, q.A.entry r j * v.getD j 0 = q.b.getD r 0)
    (hrz : ∑ j ∈ range q.dims.nv, q.A.entry r j * z.getD j 0 = q.b.getD r 0) :
    ∑ j ∈ range q.dims.nv, q.A.entry r j * (axpby (1 - s) v s z).getD j 0 = q.b.getD r 0 := by
  have he := Linear.axpby_entry (1 - s) s (hv.trans hz.symm)
  calc ∑ j ∈ range q.dims.nv, q.A.entry r j * (axpby (1 - s) v s z).getD j 0
      = (1 - s) * ∑ j ∈ range q.dims.nv, q.A.entry r j * v.getD j 0 +
          s * ∑ j ∈ range q.dims.nv, q.A.entry r j * z.getD j 0 := by
        simp only [he, Finset.mul_sum, ← Finset.sum_add_distrib]
        exact Finset.sum_congr rfl fun j _ => by ring
    _ = q.b.getD r 0 := by
        rw [hrv, hrz]
        ring

theorem form_between (s : K) :
    q.form (fun i => (axpby (1 - s) v s z).getD i 0 - v.getD i 0) (fun i => (axpby (1 - s) v s z).getD i 0 - v.getD i 0) =
      s * (s * q.form (fun i => z.getD i 0 - v.getD i 0) (fun i => z.getD i 0 - v.getD i 0)) := by
  have hd : (fun i => (axpby (1 - s) v s z).getD i 0 - v.getD i 0) = fun i => s * (z.getD i 0 - v.getD i 0) := by
    funext i
    rw [Linear.axpby_entry (1 - s) s (hv.trans hz.symm)]
    ring
  rw [hd, form_smul, form_comm, form_smul]

end Between

end DenseQp

end HorizonQp
