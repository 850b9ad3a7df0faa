/-
  HorizonQp.Proofs.Staged.Formula — the residuals of a stage, entry by entry.

  Over a field the kernels of a stage give the sums that `HorizonQp.Residual.Staged` lists:
  `hessian` is the symmetric matrix whose lower triangle is that of the leading block of
  `RSQrq`, `leaving` what the multipliers of the step to the next stage add, and `entered`
  what those of the step into the stage take away.
-/

import HorizonQp.Proofs.Exact.Kernels
import HorizonQp.Proofs.Staged.Read

namespace HorizonQp

open Linear (Matrix axpby gather scatterAdd)
open Finset (range)

namespace Stage

/-! ## Entries -/

section Entries

variable {K : Type} [ExactField K]

/-- Entry `(i, j)` of the symmetric matrix whose lower triangle is that of the leading block. -/
def hessian (s : Stage K) (i j : Nat) : K := (Linear.View.symmetric .lower).entry s.RSQrq i j

/-- The difference of the multipliers of row `k`. -/
def net (s : Stage K) (lam : List K) (k : Nat) : K := lam.getD k 0 - lam.getD (s.rows + k) 0

/-- What the multipliers of the step that leaves the stage add at coordinate `i`. -/
def leaving (s : Stage K) (pi : List K) (i : Nat) : K :=
  match s.step with
  | some step => ∑ r ∈ range step.b.length, step.BAbt.entry i r * pi.getD r 0
  | none => 0

/-- What the multipliers of a step into a stage with `nu` inputs are at coordinate `i`. -/
def entered (nu : Nat) (entering : Option (List K)) (i : Nat) : K :=
  match entering with
  | some prev => if nu ≤ i then prev.getD (i - nu) 0 else 0
  | none => 0

variable {s : Stage K}

theorem lower_entry {x : List K} {k : Nat} (hk : k < s.rows) : (s.lower x).getD k 0 = x.getD k 0 :=
  Linear.getD_take _ _ hk

theorem upper_entry {x : List K} {k : Nat} (hk : k < s.rows) : (s.upper x).getD k 0 = x.getD (s.rows + k) 0 := by
  rw [upper, run, Linear.getD_take _ _ hk, Linear.getD_drop]

variable [DecidableEq K]

theorem leave_entry (hs : s.Shaped) {pi : List K} (hpi : pi.length = s.ne) {r : List K} (hr : r.length = s.nux)
    {i : Nat} (hi : i < s.nux) : (s.leave pi r).getD i 0 = r.getD i 0 + s.leaving pi i := by
  unfold leave leaving
  cases hst : s.step with
  | none => exact (add_zero _).symm
  | some step =>
    have hc := hs.BAbt_cols step hst
    have hrows := hs.BAbt_rows step hst
    have hlen : pi.length = step.b.length := by rw [hpi, ne, hst]
    show (step.BAbt.product 1 pi 1 r).getD i 0 = _
    rw [Matrix.product_entry (hs.BAbt step hst).filled _ _ (hc.trans hlen.symm) (by omega) (by rwa [hr]), hc]
    ring

theorem enter_entry {entering : Option (List K)} (he : ∀ prev ∈ entering, prev.length = s.nx) {r : List K}
    (hr : r.length = s.nux) (i : Nat) : (s.enter entering r).getD i 0 = r.getD i 0 - entered s.nu entering i := by
  unfold enter entered
  cases entering with
  | none => exact (sub_zero _).symm
  | some prev =>
    have hx : (r.drop s.nu).length = s.nx := by rw [List.length_drop, hr, nux]; omega
    have ht : (r.take s.nu).length = s.nu := by rw [List.length_take, hr, nux]; omega
    show (r.take s.nu ++ axpby (-1) prev 1 (r.drop s.nu)).getD i 0 = r.getD i 0 - if s.nu ≤ i then prev.getD (i - s.nu) 0 else 0
    rw [Linear.getD_append_ite, ht]
    by_cases hu : i < s.nu
    · rw [if_pos hu, if_neg (by omega), Linear.getD_take _ _ hu, sub_zero]
    · rw [if_neg hu, if_pos (by omega), Linear.axpby_entry _ _ ((he prev rfl).trans hx.symm), Linear.getD_drop,
        show s.nu + (i - s.nu) = i by omega]
      ring

/-- The multipliers of the bounds, the upper taken from the lower. -/
theorem boundsNet_entry {lam : List K} (hlam : lam.length = s.nc) {k : Nat} (hk : k < s.nb) :
    (s.boundsNet lam).getD k 0 = s.net lam k := by
  have hl := length_bounds (length_lower hlam)
  have hu := length_bounds (length_upper hlam)
  have hr : k < s.rows := by rw [rows]; omega
  rw [boundsNet, Linear.axpby_entry _ _ (hl.trans hu.symm), bounds, bounds, Linear.getD_take _ _ hk,
    Linear.getD_take _ _ hk, lower_entry hr, upper_entry hr, net]
  ring

/-- Those of the general constraints. -/
theorem generalNet_entry {lam : List K} (hlam : lam.length = s.nc) {k : Nat} (hk : k < s.ng) :
    (s.generalNet lam).getD k 0 = s.net lam (s.nb + k) := by
  have hl := length_general (length_lower hlam)
  have hu := length_general (length_upper hlam)
  have hr : s.nb + k < s.rows := by rw [rows]; omega
  rw [generalNet, Linear.axpby_entry _ _ (hl.trans hu.symm), general, general, Linear.getD_drop, Linear.getD_drop,
    lower_entry hr, upper_entry hr, net]
  ring

theorem costs_entry (hs : s.Shaped) {v : List K} (hv : v.length = s.nv) {i : Nat} (hi : i < s.nux) :
    (s.costs v).getD i 0 = ∑ j ∈ range s.nux, s.hessian i j * v.getD j 0 + s.rqz.getD i 0 := by
  have hrqz : (s.rqz.take s.nux).length = s.nux := by rw [List.length_take, hs.rqz, nv]; omega
  have hux := length_ux hv
  rw [costs, Matrix.symmetricProduct_entry _ _ _ _ (by rw [hux, hs.RSQrq_cols])
    (by rw [hs.RSQrq_cols, hs.RSQrq_rows]; omega) (by rwa [hrqz]) (by rwa [hs.RSQrq_cols]), hs.RSQrq_cols,
    Linear.getD_take _ _ hi, one_mul, one_mul]
  congr 1
  refine Finset.sum_congr rfl fun j hj => ?_
  rw [ux, Linear.getD_take _ _ (Finset.mem_range.mp hj), hessian]

/-- The parts of the stage that its stationarity is computed from have the right lengths. -/
structure Parts (s : Stage K) (v pi lam : List K) (entering : Option (List K)) : Prop where
  v : v.length = s.nv
  pi : pi.length = s.ne
  lam : lam.length = s.nc
  entering : ∀ prev ∈ entering, prev.length = s.nx

theorem stationarity_entry (hs : s.Shaped) {v pi lam : List K} {entering : Option (List K)}
    (h : s.Parts v pi lam entering) {i : Nat} (hi : i < s.nux) :
    (s.stationarity v pi entering lam).getD i 0 =
      ∑ j ∈ range s.nux, s.hessian i j * v.getD j 0 + s.rqz.getD i 0
        + s.leaving pi i - entered s.nu entering i
        + (∑ k ∈ range s.nb, if s.idxb.getD k 0 = i then s.net lam k else 0)
        + ∑ k ∈ range s.ng, s.DCt.entry i k * s.net lam (s.nb + k) := by
  have hcosts := length_costs hs v
  have hleave := length_leave hs pi hcosts
  have hdyn := length_enter h.entering hleave
  rw [stationarity, Matrix.product_entry hs.DCt.filled _ _ (hs.DCt_cols.trans (length_generalNet h.lam).symm)
      (by rw [Linear.length_scatterAdd, hdyn, hs.DCt_rows]) (by rwa [Linear.length_scatterAdd, hdyn]),
    Linear.scatterAdd_entry _ ((length_boundsNet h.lam).trans hs.idxb.symm) (by rwa [hdyn]),
    enter_entry h.entering hleave, leave_entry hs h.pi hcosts hi, costs_entry hs h.v hi, hs.DCt_cols, hs.idxb, one_mul,
    one_mul, add_comm]
  congr 1
  · congr 1
    refine Finset.sum_congr rfl fun k hk => ?_
    rw [boundsNet_entry h.lam (Finset.mem_range.mp hk), one_mul]
  · refine Finset.sum_congr rfl fun k hk => ?_
    rw [generalNet_entry h.lam (Finset.mem_range.mp hk)]

theorem equations_entry (hs : s.Shaped) {step : Step K} (hst : s.step = some step) {v rest : List K}
    (hv : v.length = s.nv) (hrest : step.nu + step.b.length ≤ rest.length) {r : Nat} (hr : r < step.b.length) :
    (s.equations step v rest).getD r 0 =
      rest.getD (step.nu + r) 0 - ∑ j ∈ range s.nux, step.BAbt.entry j r * v.getD j 0 - step.b.getD r 0 := by
  have hc := hs.BAbt_cols step hst
  have hrows := hs.BAbt_rows step hst
  have hux := length_ux hv
  have ht : (step.BAbt.transposedProduct (-1) (s.ux v) (-1) step.b).length = step.b.length :=
    Matrix.length_transposedProduct _ _ _ hc
  have hsum : ∑ j ∈ range (s.ux v).length, step.BAbt.entry j r * (s.ux v).getD j 0 =
      ∑ j ∈ range s.nux, step.BAbt.entry j r * v.getD j 0 := by
    rw [hux]
    refine Finset.sum_congr rfl fun j hj => ?_
    rw [ux, Linear.getD_take _ _ (Finset.mem_range.mp hj)]
  rw [equations, Linear.axpby_entry _ _ ((length_run hrest).trans ht.symm), run, Linear.getD_take _ _ hr, Linear.getD_drop,
    Matrix.transposedProduct_entry _ _ _ (by omega) (by omega) hr, hsum]
  ring

end Entries

end Stage

end HorizonQp
