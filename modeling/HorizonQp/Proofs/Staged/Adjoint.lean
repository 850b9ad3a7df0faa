/-
  HorizonQp.Proofs.Staged.Adjoint — the multipliers act through transposes.

  What the multipliers add to the stationarity of a stage is the transpose of what its
  variables do to its equations and rows: paired with a direction it is the change of the
  equations and rows along that direction, paired with the multipliers (`Stage.Fed.pairing_eq`).
  Bounds and slacks scatter through the index arrays that they gather through. What is left
  over at a stage are the multipliers of the steps that enter and leave it against the
  direction in the states between (`crossing`); along the walk they cancel (`walk_pairing`).
  The quadratic costs pull along two directions as one symmetric form (`walk_costs`).
-/

import HorizonQp.Proofs.Staged.Residuals
import Mathlib.Tactic.LinearCombination

namespace HorizonQp

open Linear (dot mul)
open Finset (range)

variable {K : Type} [ExactField K]

/-- The multipliers `entering` of the step into a stage with `nu` inputs, against a direction at that stage. -/
def crossing (nu : Nat) (entering : Option (List K)) (w : List K) : K :=
  entering.elim 0 fun prev => ∑ k ∈ range prev.length, prev.getD k 0 * w.getD (nu + k) 0

namespace Stage

variable {s : Stage K}

/-- The states that the step of a stage leads to from the inputs and states `v`. -/
def forward (s : Stage K) (v : List K) (k : Nat) : K :=
  s.step.elim 0 fun step => ∑ j ∈ range s.nux, step.BAbt.entry j k * v.getD j 0

/-- The sign of each row of a stage in the Lagrangian: upper bounds and constraints count against. -/
def signs (s : Stage K) : List K := List.replicate s.rows 1 ++ List.replicate s.rows (-1) ++ List.replicate (2 * s.ns) 1

theorem length_signs : s.signs.length = s.nc := by
  simp only [signs, List.length_append, List.length_replicate, nc]
  omega

theorem sum_nc (f : Nat → K) : ∑ k ∈ range s.nc, f k =
    ∑ k ∈ range s.rows, f k + ∑ k ∈ range s.rows, f (s.rows + k) + ∑ j ∈ range s.ns, f (2 * s.rows + j)
      + ∑ j ∈ range s.ns, f (2 * s.rows + s.ns + j) := by
  have hnc : s.nc = 2 * s.rows + s.ns + s.ns := by rw [nc]; omega
  have hrows : ∑ k ∈ range (2 * s.rows), f k = ∑ k ∈ range s.rows, f k + ∑ k ∈ range s.rows, f (s.rows + k) := by
    rw [two_mul, Finset.sum_range_add]
  rw [hnc, Finset.sum_range_add, Finset.sum_range_add, hrows]

/-! ### Signed multipliers -/

section Signed

variable {lam : List K} (h : lam.length = s.nc)
include h

theorem signed_lower {k : Nat} (hk : k < s.rows) : (mul s.signs lam).getD k 0 = lam.getD k 0 := by
  rw [Linear.mul_entry (length_signs.trans h.symm), signs, List.append_assoc, Linear.getD_append_ite,
    List.length_replicate, if_pos hk, List.getD_replicate _ hk, one_mul]

theorem signed_upper {k : Nat} (hk : k < s.rows) : (mul s.signs lam).getD (s.rows + k) 0 = -lam.getD (s.rows + k) 0 := by
  rw [Linear.mul_entry (length_signs.trans h.symm), signs, List.append_assoc, Linear.getD_append_ite,
    List.length_replicate, if_neg (by omega), Nat.add_sub_cancel_left, Linear.getD_append_ite, List.length_replicate,
    if_pos hk, List.getD_replicate _ hk, neg_one_mul]

theorem signed_slack {j : Nat} (hj : j < 2 * s.ns) :
    (mul s.signs lam).getD (2 * s.rows + j) 0 = lam.getD (2 * s.rows + j) 0 := by
  rw [Linear.mul_entry (length_signs.trans h.symm), signs, Linear.getD_append_ite, List.length_append,
    List.length_replicate, List.length_replicate, if_neg (by omega), show 2 * s.rows + j - (s.rows + s.rows) = j by omega,
    List.getD_replicate _ hj, one_mul]

theorem signed_ls {j : Nat} (hj : j < s.ns) : (mul s.signs lam).getD (2 * s.rows + j) 0 = lam.getD (2 * s.rows + j) 0 :=
  signed_slack h (by omega)

theorem signed_us {j : Nat} (hj : j < s.ns) :
    (mul s.signs lam).getD (2 * s.rows + s.ns + j) 0 = lam.getD (2 * s.rows + s.ns + j) 0 := by
  rw [Nat.add_assoc]
  exact signed_slack h (by omega)

end Signed

/-! ### Transposes -/

theorem sum_leaving (pi w : List K) :
    ∑ i ∈ range s.nux, s.leaving pi i * w.getD i 0 = ∑ k ∈ range s.ne, pi.getD k 0 * s.forward w k := by
  unfold leaving forward ne
  cases s.step with
  | none => simp
  | some step => exact Linear.sum_rows_mul _ _ step.BAbt.entry _ _

theorem sum_entered {entering : Option (List K)} (he : ∀ prev ∈ entering, prev.length = s.nx) (w : List K) :
    ∑ i ∈ range s.nux, entered s.nu entering i * w.getD i 0 = crossing s.nu entering w := by
  cases entering with
  | none => simp [entered, crossing]
  | some prev =>
    have hinputs : ∑ i ∈ range s.nu, entered s.nu (some prev) i * w.getD i 0 = 0 := by
      refine Finset.sum_eq_zero fun i hi => ?_
      rw [entered, if_neg (Nat.not_le.mpr (Finset.mem_range.mp hi)), zero_mul]
    rw [nux, Finset.sum_range_add, hinputs, zero_add, crossing, Option.elim_some, he prev rfl]
    refine Finset.sum_congr rfl fun k _ => ?_
    rw [entered, if_pos (Nat.le_add_right ..), Nat.add_sub_cancel_left]

/-- Bounds and general constraints: the multipliers of the rows against the values of the rows. -/
theorem sum_rows (hs : s.Shaped) (hi : ∀ k ∈ s.idxb, k < s.nux) (y : Nat → K) (w : List K) :
    ∑ i ∈ range s.nux, ((∑ k ∈ range s.nb, if s.idxb.getD k 0 = i then y k else 0)
        + ∑ k ∈ range s.ng, s.DCt.entry i k * y (s.nb + k)) * w.getD i 0 =
      ∑ k ∈ range s.rows, y k * s.constraint w k := by
  have hidx : ∀ k < s.nb, s.idxb.getD k 0 < s.nux := fun k hk => Linear.getD_lt hi (by rwa [hs.idxb])
  simp only [add_mul, Finset.sum_add_distrib]
  rw [Linear.sum_scattered_mul hidx, Linear.sum_rows_mul, rows, Finset.sum_range_add]
  congr 1
  · refine Finset.sum_congr rfl fun k hk => ?_
    rw [constraint_bound w (Finset.mem_range.mp hk)]
  · refine Finset.sum_congr rfl fun k _ => ?_
    rw [constraint_general]

/-- Slacks: the multipliers of the softened rows against what the slacks move the rows by. -/
theorem sum_softened (hs : s.Shaped) (hi : ∀ k ∈ s.idxs, k < s.rows) (y slack : Nat → K) :
    ∑ j ∈ range s.ns, y (s.idxs.getD j 0) * slack j = ∑ k ∈ range s.rows, y k * s.moved slack k := by
  have hidx : ∀ j < s.ns, s.idxs.getD j 0 < s.rows := fun j hj => Linear.getD_lt hi (by rwa [hs.idxs])
  have hswap := Linear.sum_scattered_mul hidx slack y
  simp only [mul_comm] at hswap ⊢
  exact hswap.symm

theorem constraint_plus {v w : List K} (h : v.length = w.length) (k : Nat) :
    s.constraint (List.zipWith (· + ·) v w) k = s.constraint v k + s.constraint w k := by
  simp only [constraint, Linear.plus_entry h, mul_add, Finset.sum_add_distrib]
  split <;> rfl

theorem moved_plus (a b : Nat → K) (k : Nat) : s.moved (fun j => a j + b j) k = s.moved a k + s.moved b k := by
  simp only [moved, ← Finset.sum_add_distrib]
  refine Finset.sum_congr rfl fun j _ => ?_
  split <;> simp

/-! ### Zero multipliers -/

theorem leaving_zero {pi : List K} (h : ∀ x ∈ pi, x = 0) (i : Nat) : s.leaving pi i = 0 := by
  unfold leaving
  split
  · exact Finset.sum_eq_zero fun k _ => by rw [Linear.getD_eq_zero h, mul_zero]
  · rfl

theorem entered_zero {nu : Nat} {entering : Option (List K)} (h : ∀ prev ∈ entering, ∀ x ∈ prev, x = 0) (i : Nat) :
    entered nu entering i = 0 := by
  cases entering with
  | none => rfl
  | some prev => rw [entered, Linear.getD_eq_zero (h prev rfl), ite_self]

theorem net_zero {lam : List K} (h : ∀ x ∈ lam, x = 0) (k : Nat) : s.net lam k = 0 := by
  rw [net, Linear.getD_eq_zero h, Linear.getD_eq_zero h, sub_zero]

/-! ### One stage -/

section Pairing

variable [DecidableEq K] {p p' : Iterate K} {entering entering' : Option (List K)} {after after' : List K} {mu mu' : K}
  {w : List K}

/-- What the multipliers of a stage add to its stationarity. -/
theorem Fed.stationarity_pull (h : s.Fed p entering after) (h' : s.Fed p' entering' after') (hux : p'.ux = p.ux)
    (hpi : ∀ x ∈ p'.pi, x = 0) (hlam : ∀ x ∈ p'.lam, x = 0) (he : ∀ prev ∈ entering', ∀ x ∈ prev, x = 0) (mu mu' : K) :
    (∀ i < s.nux, (s.residuals p entering after mu).stationarity.getD i 0
        - (s.residuals p' entering' after' mu').stationarity.getD i 0 =
      s.leaving p.pi i - entered s.nu entering i
        + ((∑ k ∈ range s.nb, if s.idxb.getD k 0 = i then s.net p.lam k else 0)
          + ∑ k ∈ range s.ng, s.DCt.entry i k * s.net p.lam (s.nb + k))) ∧
    (∀ j < s.ns, (s.residuals p entering after mu).stationarity.getD (s.nux + j) 0
        - (s.residuals p' entering' after' mu').stationarity.getD (s.nux + j) 0 =
      p.lam.getD (s.idxs.getD j 0) 0 + p.lam.getD (2 * s.rows + j) 0) ∧
    (∀ j < s.ns, (s.residuals p entering after mu).stationarity.getD (s.nux + s.ns + j) 0
        - (s.residuals p' entering' after' mu').stationarity.getD (s.nux + s.ns + j) 0 =
      p.lam.getD (s.rows + s.idxs.getD j 0) 0 + p.lam.getD (2 * s.rows + s.ns + j) 0) := by
  rcases h.stationarity_entries mu with ⟨front, low, up⟩
  rcases h'.stationarity_entries mu' with ⟨front', low', up'⟩
  refine ⟨fun i hi => ?_, fun j hj => ?_, fun j hj => ?_⟩
  · rw [front i hi, front' i hi, leaving_zero hpi, entered_zero he, hux]
    simp only [net_zero hlam, mul_zero, ite_self, Finset.sum_const_zero]
    ring
  · rw [low j hj, low' j hj, hux, Linear.getD_eq_zero hlam, Linear.getD_eq_zero hlam]
    ring
  · rw [up j hj, up' j hj, hux, Linear.getD_eq_zero hlam, Linear.getD_eq_zero hlam]
    ring

/-- The pull of the multipliers of a stage on its variables, along `w`. -/
theorem Fed.pairing_stationarity (h : s.Fed p entering after) (h' : s.Fed p' entering' after') (hux : p'.ux = p.ux)
    (hpi : ∀ x ∈ p'.pi, x = 0) (hlam : ∀ x ∈ p'.lam, x = 0) (he : ∀ prev ∈ entering', ∀ x ∈ prev, x = 0)
    (hw : w.length = s.nv) :
    dot w (List.zipWith (· - ·) (s.residuals p entering after mu).stationarity
        (s.residuals p' entering' after' mu').stationarity) =
      ∑ k ∈ range s.ne, p.pi.getD k 0 * s.forward w k - crossing s.nu entering w
        + ∑ k ∈ range s.rows, s.net p.lam k * s.constraint w k
        + ∑ k ∈ range s.rows, p.lam.getD k 0 * s.moved (fun j => w.getD (s.nux + j) 0) k
        + ∑ k ∈ range s.rows, p.lam.getD (s.rows + k) 0 * s.moved (fun j => w.getD (s.nux + s.ns + j) 0) k
        + ∑ j ∈ range s.ns, p.lam.getD (2 * s.rows + j) 0 * w.getD (s.nux + j) 0
        + ∑ j ∈ range s.ns, p.lam.getD (2 * s.rows + s.ns + j) 0 * w.getD (s.nux + s.ns + j) 0 := by
  rcases h.stationarity_pull h' hux hpi hlam he mu mu' with ⟨front, low, up⟩
  have hnv : s.nv = s.nux + s.ns + s.ns := by rw [nv]; omega
  rw [Linear.dot_minus hw (h.holds mu).stationarity (h'.holds mu').stationarity, hnv, Finset.sum_range_add,
    Finset.sum_range_add, ← sum_leaving, ← sum_entered h.entering, ← sum_rows h.shaped h.idxb,
    ← sum_softened h.shaped h.idxs (p.lam.getD · 0), ← sum_softened h.shaped h.idxs fun k => p.lam.getD (s.rows + k) 0,
    Finset.sum_congr rfl fun i hi => congrArg (w.getD i 0 * ·) (front i (Finset.mem_range.mp hi)),
    Finset.sum_congr rfl fun j hj => congrArg (w.getD (s.nux + j) 0 * ·) (low j (Finset.mem_range.mp hj)),
    Finset.sum_congr rfl fun j hj => congrArg (w.getD (s.nux + s.ns + j) 0 * ·) (up j (Finset.mem_range.mp hj))]
  simp only [mul_comm (w.getD _ 0), add_mul, sub_mul, Finset.sum_add_distrib, Finset.sum_sub_distrib]
  ring

/-- The change of the equations of a stage along `w`, and along `ahead` behind the stage. -/
theorem Fed.pairing_equations (h : s.Fed p entering after) (h' : s.Fed p' entering' after') {ahead : List K}
    (hw : w.length = s.nv) (hux : p'.ux = List.zipWith (· + ·) p.ux w) (hl : after.length = ahead.length)
    (ha : after' = List.zipWith (· + ·) after ahead) :
    dot p.pi (List.zipWith (· - ·) (s.residuals p' entering' after' mu').equations (s.residuals p entering after mu).equations) =
      crossing (s.step.elim 0 Step.nu) (some p.pi) ahead - ∑ k ∈ range s.ne, p.pi.getD k 0 * s.forward w k := by
  have hentry : ∀ k < s.ne, (s.residuals p' entering' after' mu').equations.getD k 0
        - (s.residuals p entering after mu).equations.getD k 0 =
      ahead.getD (s.step.elim 0 Step.nu + k) 0 - s.forward w k := by
    intro k hk
    unfold forward
    cases hst : s.step with
    | none =>
      rw [ne, hst] at hk
      cases hk
    | some step =>
      rw [ne, hst] at hk
      have hv : p.ux.length = w.length := h.ux.trans hw.symm
      simp only [residuals, hst, Option.elim_some]
      rw [equations_entry h.shaped hst h.ux (h.after step hst) hk,
        equations_entry h'.shaped hst h'.ux (h'.after step hst) hk, hux, ha]
      simp only [Linear.plus_entry hv, Linear.plus_entry hl, mul_add, Finset.sum_add_distrib]
      ring
  rw [Linear.dot_minus h.pi (h'.holds mu').equations (h.holds mu).equations, crossing, Option.elim_some, h.pi,
    ← Finset.sum_sub_distrib]
  refine Finset.sum_congr rfl fun k hk => ?_
  rw [hentry k (Finset.mem_range.mp hk), mul_sub]

/-- What a direction `w` does to the rows of a stage. -/
theorem Fed.rows_along (h : s.Fed p entering after) (h' : s.Fed p' entering' after') (hw : w.length = s.nv)
    (hux : p'.ux = List.zipWith (· + ·) p.ux w) (ht : p'.t = p.t) (mu mu' : K) :
    (∀ k < s.rows, (s.residuals p' entering' after' mu').inequalities.getD k 0
        - (s.residuals p entering after mu).inequalities.getD k 0 =
      -(s.constraint w k + s.moved (fun j => w.getD (s.nux + j) 0) k)) ∧
    (∀ k < s.rows, (s.residuals p' entering' after' mu').inequalities.getD (s.rows + k) 0
        - (s.residuals p entering after mu).inequalities.getD (s.rows + k) 0 =
      -(s.constraint w k - s.moved (fun j => w.getD (s.nux + s.ns + j) 0) k)) ∧
    (∀ j < s.ns, (s.residuals p' entering' after' mu').inequalities.getD (2 * s.rows + j) 0
        - (s.residuals p entering after mu).inequalities.getD (2 * s.rows + j) 0 = -w.getD (s.nux + j) 0) ∧
    (∀ j < s.ns, (s.residuals p' entering' after' mu').inequalities.getD (2 * s.rows + s.ns + j) 0
        - (s.residuals p entering after mu).inequalities.getD (2 * s.rows + s.ns + j) 0 = -w.getD (s.nux + s.ns + j) 0) := by
  have hv : p.ux.length = w.length := h.ux.trans hw.symm
  rcases inequalities_entries h.shaped h.idxb h.ux h.t with ⟨low, up, ls, us⟩
  rcases inequalities_entries h'.shaped h'.idxb h'.ux h'.t with ⟨low', up', ls', us'⟩
  refine ⟨fun k hk => ?_, fun k hk => ?_, fun j hj => ?_, fun j hj => ?_⟩
  · rw [residuals, residuals, low k hk, low' k hk, hux, ht, constraint_plus hv]
    simp only [Linear.plus_entry hv, moved_plus]
    ring
  · rw [residuals, residuals, up k hk, up' k hk, hux, ht, constraint_plus hv]
    simp only [Linear.plus_entry hv, moved_plus]
    ring
  · rw [residuals, residuals, ls j hj, ls' j hj, hux, ht, Linear.plus_entry hv]
    ring
  · rw [residuals, residuals, us j hj, us' j hj, hux, ht, Linear.plus_entry hv]
    ring

/-- The change of the rows of a stage along `w`. -/
theorem Fed.pairing_rows (h : s.Fed p entering after) (h' : s.Fed p' entering' after') (hw : w.length = s.nv)
    (hux : p'.ux = List.zipWith (· + ·) p.ux w) (ht : p'.t = p.t) :
    dot (mul s.signs p.lam) (List.zipWith (· - ·) (s.residuals p' entering' after' mu').inequalities
        (s.residuals p entering after mu).inequalities) =
      -(∑ k ∈ range s.rows, s.net p.lam k * s.constraint w k
        + ∑ k ∈ range s.rows, p.lam.getD k 0 * s.moved (fun j => w.getD (s.nux + j) 0) k
        + ∑ k ∈ range s.rows, p.lam.getD (s.rows + k) 0 * s.moved (fun j => w.getD (s.nux + s.ns + j) 0) k
        + ∑ j ∈ range s.ns, p.lam.getD (2 * s.rows + j) 0 * w.getD (s.nux + j) 0
        + ∑ j ∈ range s.ns, p.lam.getD (2 * s.rows + s.ns + j) 0 * w.getD (s.nux + s.ns + j) 0) := by
  have hlam : s.signs.length = p.lam.length := length_signs.trans h.lam.symm
  rcases h.rows_along h' hw hux ht mu mu' with ⟨low, up, ls, us⟩
  rw [Linear.dot_minus ((Linear.length_mul hlam).trans h.lam) (h'.holds mu').inequalities (h.holds mu).inequalities,
    sum_nc,
    Finset.sum_congr rfl fun k hk =>
      congrArg₂ (· * ·) (signed_lower h.lam (Finset.mem_range.mp hk)) (low k (Finset.mem_range.mp hk)),
    Finset.sum_congr rfl fun k hk =>
      congrArg₂ (· * ·) (signed_upper h.lam (Finset.mem_range.mp hk)) (up k (Finset.mem_range.mp hk)),
    Finset.sum_congr rfl fun j hj =>
      congrArg₂ (· * ·) (signed_ls h.lam (Finset.mem_range.mp hj)) (ls j (Finset.mem_range.mp hj)),
    Finset.sum_congr rfl fun j hj =>
      congrArg₂ (· * ·) (signed_us h.lam (Finset.mem_range.mp hj)) (us j (Finset.mem_range.mp hj))]
  simp only [net, mul_neg, neg_mul, mul_add, mul_sub, sub_mul, Finset.sum_add_distrib, Finset.sum_sub_distrib,
    Finset.sum_neg_distrib]
  ring

/-! ### The costs -/

/-- The value at `w` and `z` of the bilinear form of the quadratic costs of a stage. -/
def curvature (s : Stage K) (w z : List K) : K :=
  ∑ i ∈ range s.nux, w.getD i 0 * ∑ j ∈ range s.nux, s.hessian i j * z.getD j 0
    + ∑ j ∈ range s.ns, s.Z.getD j 0 * (w.getD (s.nux + j) 0 * z.getD (s.nux + j) 0)
    + ∑ j ∈ range s.ns, s.Z.getD (s.ns + j) 0 * (w.getD (s.nux + s.ns + j) 0 * z.getD (s.nux + s.ns + j) 0)

theorem curvature_comm (w z : List K) : s.curvature w z = s.curvature z w := by
  have hfront := Linear.sum_form_comm s.nux (M := s.hessian) (fun i j => Linear.View.symmetric_entry_comm ..) (w.getD · 0)
    (z.getD · 0)
  have hswap (first i : Nat) : w.getD (first + i) 0 * z.getD (first + i) 0 = z.getD (first + i) 0 * w.getD (first + i) 0 :=
    mul_comm _ _
  simp only [curvature, hswap]
  rw [hfront]

/-- The change of the stationarity of a stage along `z` comes from its quadratic costs. -/
theorem Fed.pairing_costs (h : s.Fed p entering after) (h' : s.Fed p' entering after') {z : List K} (hw : w.length = s.nv)
    (hz : z.length = s.nv) (hux : p'.ux = List.zipWith (· + ·) p.ux z) (hpi : p'.pi = p.pi) (hlam : p'.lam = p.lam)
    (mu mu' : K) :
    dot w (List.zipWith (· - ·) (s.residuals p' entering after' mu').stationarity
        (s.residuals p entering after mu).stationarity) = s.curvature w z := by
  rcases h.stationarity_entries mu with ⟨front, low, up⟩
  rcases h'.stationarity_entries mu' with ⟨front', low', up'⟩
  have hv : p.ux.length = z.length := h.ux.trans hz.symm
  have hnv : s.nv = s.nux + s.ns + s.ns := by rw [nv]; omega
  rw [Linear.dot_minus hw (h'.holds mu').stationarity (h.holds mu).stationarity, hnv, Finset.sum_range_add,
    Finset.sum_range_add, curvature]
  refine congrArg₂ (· + ·) (congrArg₂ (· + ·) ?_ ?_) ?_
  · refine Finset.sum_congr rfl fun i hi => ?_
    rw [front i (Finset.mem_range.mp hi), front' i (Finset.mem_range.mp hi), hux, hpi, hlam]
    simp only [Linear.plus_entry hv, mul_add, Finset.sum_add_distrib]
    ring
  · refine Finset.sum_congr rfl fun j hj => ?_
    rw [low j (Finset.mem_range.mp hj), low' j (Finset.mem_range.mp hj), hux, hlam, Linear.plus_entry hv]
    ring
  · refine Finset.sum_congr rfl fun j hj => ?_
    rw [up j (Finset.mem_range.mp hj), up' j (Finset.mem_range.mp hj), hux, hlam, Linear.plus_entry hv]
    ring

end Pairing

end Stage

/-- The stationarity that `r` has and `r₀` has not, paired with `w`, and the change of the
    equations and rows from `r` to `r₁`, paired with their multipliers. -/
def pairing (w pi y : List K) (r r₀ r₁ : Residuals K) : K :=
  dot w (List.zipWith (· - ·) r.stationarity r₀.stationarity)
    + dot pi (List.zipWith (· - ·) r₁.equations r.equations)
    + dot y (List.zipWith (· - ·) r₁.inequalities r.inequalities)

/-- The pairing of all stages is that of the first and that of the stages behind it. -/
theorem pairing_before {s : Stage K} {w pi y : List K} {f f₀ f₁ : Residuals K} (hw : w.length = s.nv)
    (hpi : pi.length = s.ne) (hy : y.length = s.nc) (h : s.Holds f) (h₀ : s.Holds f₀) (h₁ : s.Holds f₁)
    (w' pi' y' : List K) (b b₀ b₁ : Residuals K) :
    pairing (w ++ w') (pi ++ pi') (y ++ y') (f.before b) (f₀.before b₀) (f₁.before b₁) =
      pairing w pi y f f₀ f₁ + pairing w' pi' y' b b₀ b₁ := by
  simp only [pairing, Residuals.before]
  rw [Linear.dot_minus_append hw h.stationarity h₀.stationarity, Linear.dot_minus_append hpi h₁.equations h.equations,
    Linear.dot_minus_append hy h₁.inequalities h.inequalities]
  ring

theorem crossing_nil (nu : Nat) (entering : Option (List K)) : crossing nu entering [] = 0 := by
  cases entering with
  | none => rfl
  | some prev => simp [crossing]

/-- A step reaches the states of the next stage only. -/
theorem crossing_take {s : Stage K} {entering : Option (List K)} (he : ∀ prev ∈ entering, prev.length = s.nx) (w : List K) :
    crossing s.nu entering (w.take s.nv) = crossing s.nu entering w := by
  cases entering with
  | none => rfl
  | some prev =>
    rw [crossing, crossing, Option.elim_some, Option.elim_some, he prev rfl]
    refine Finset.sum_congr rfl fun k hk => ?_
    have hk := Finset.mem_range.mp hk
    rw [Linear.getD_take _ _ (by rw [Stage.nv, Stage.nux]; omega)]

variable [DecidableEq K]

/-- Along `w` the pull of the multipliers of a stage is the change of its equations and rows,
    but for the multipliers of the steps between the stages. -/
theorem Stage.Fed.pairing_eq {s : Stage K} {p q₀ q₁ : Iterate K} {e e₀ e₁ : Option (List K)} {a a₀ a₁ w ahead : List K}
    (h : s.Fed p e a) (h₀ : s.Fed q₀ e₀ a₀) (h₁ : s.Fed q₁ e₁ a₁)
    (hux₀ : q₀.ux = p.ux) (hpi₀ : ∀ x ∈ q₀.pi, x = 0) (hlam₀ : ∀ x ∈ q₀.lam, x = 0) (he₀ : ∀ prev ∈ e₀, ∀ x ∈ prev, x = 0)
    (hw : w.length = s.nv) (hux₁ : q₁.ux = List.zipWith (· + ·) p.ux w) (ht₁ : q₁.t = p.t)
    (hl : a.length = ahead.length) (ha₁ : a₁ = List.zipWith (· + ·) a ahead) (mu mu₀ mu₁ : K) :
    pairing w p.pi (mul s.signs p.lam) (s.residuals p e a mu) (s.residuals q₀ e₀ a₀ mu₀) (s.residuals q₁ e₁ a₁ mu₁) =
      crossing (s.step.elim 0 Step.nu) (some p.pi) ahead - crossing s.nu e w := by
  rw [pairing, h.pairing_stationarity h₀ hux₀ hpi₀ hlam₀ he₀ hw, h.pairing_equations h₁ hw hux₁ hl ha₁,
    h.pairing_rows h₁ hw hux₁ ht₁]
  ring

/-! ## All stages -/

/-- The signs of the rows of all stages. -/
def rowSigns (stages : List (Stage K)) : List K := stages.flatMap Stage.signs

omit [DecidableEq K] in
theorem length_rowSigns (stages : List (Stage K)) : (rowSigns stages).length = total (stages.map Stage.nc) := by
  induction stages with
  | nil => rfl
  | cons s stages ih =>
    rw [rowSigns, List.flatMap_cons, List.length_append, Stage.length_signs, List.map_cons, total_cons]
    exact congrArg _ ih

theorem signed_cons {s : Stage K} {stages : List (Stage K)} {lam : List K} (h : s.nc ≤ lam.length) :
    mul (rowSigns (s :: stages)) lam = mul s.signs (lam.take s.nc) ++ mul (rowSigns stages) (lam.drop s.nc) := by
  have hlen : s.signs.length = (lam.take s.nc).length := Stage.length_signs.trans (List.length_take_of_le h).symm
  rw [mul, mul, mul, ← List.zipWith_append hlen, List.take_append_drop]
  rfl

/-- Along the walk the multipliers of the steps cancel, but for those of the step into the first stage. -/
theorem walk_pairing {stages : List (Stage K)} {v pi lam t w pi₀ lam₀ : List K} {e e₀ : Option (List K)}
    (h : Suits stages ⟨v, pi, lam, t⟩) (he : Enters stages e) (hw : w.length = v.length)
    (hpi₀ : pi₀.length = pi.length) (hlam₀ : lam₀.length = lam.length) (he₀ : Enters stages e₀)
    (hpi : ∀ x ∈ pi₀, x = 0) (hlam : ∀ x ∈ lam₀, x = 0) (hzero : ∀ prev ∈ e₀, ∀ x ∈ prev, x = 0) (gap gap₀ gap₁ : K) :
    pairing w pi (mul (rowSigns stages) lam) (residualsFrom stages ⟨v, pi, lam, t⟩ e gap)
        (residualsFrom stages ⟨v, pi₀, lam₀, t⟩ e₀ gap₀)
        (residualsFrom stages ⟨List.zipWith (· + ·) v w, pi, lam, t⟩ e gap₁) =
      -crossing (firstInputs stages) e w := by
  induction stages generalizing v pi lam t w pi₀ lam₀ e e₀ gap gap₀ gap₁ with
  | nil =>
    have hpi : pi = [] := List.eq_nil_of_length_eq_zero h.sized.pi
    have hw : w = [] := List.eq_nil_of_length_eq_zero (hw.trans h.sized.ux)
    rw [pairing, hpi, hw, crossing_nil, Linear.dot_nil, Linear.dot_nil]
    show 0 + 0 + dot ([] : List K) [] = -0
    rw [Linear.dot_nil]
    ring
  | cons s stages ih =>
    have h₀ : Suits (s :: stages) ⟨v, pi₀, lam₀, t⟩ := h.resized rfl hpi₀ hlam₀ rfl
    have h₁ : Suits (s :: stages) ⟨List.zipWith (· + ·) v w, pi, lam, t⟩ :=
      h.resized (by rw [List.length_zipWith, hw, Nat.min_self]) rfl rfl rfl
    have f := h.first he
    have f₀ := h₀.first he₀
    have f₁ := h₁.first he
    have hhead : (w.take s.nv).length = s.nv := List.length_take_of_le (by rw [hw]; exact h.sized.ux_le)
    have hdrop : (w.drop s.nv).length = (v.drop s.nv).length := by rw [List.length_drop, List.length_drop, hw]
    have hpi' : (pi₀.drop s.ne).length = (pi.drop s.ne).length := by rw [List.length_drop, List.length_drop, hpi₀]
    have hlam' : (lam₀.drop s.nc).length = (lam.drop s.nc).length := by rw [List.length_drop, List.length_drop, hlam₀]
    have hsigned : (mul s.signs (lam.take s.nc)).length = s.nc :=
      (Linear.length_mul (Stage.length_signs.trans f.lam.symm)).trans f.lam
    have hfront := f.pairing_eq f₀ f₁ rfl (fun x hx => hpi x (List.mem_of_mem_take hx))
      (fun x hx => hlam x (List.mem_of_mem_take hx)) hzero hhead List.take_zipWith rfl hdrop.symm List.drop_zipWith gap gap₀ gap₁
    have hback := ih h.rest h.enters hdrop hpi' hlam' h₀.enters (fun x hx => hpi x (List.mem_of_mem_drop hx))
      (fun x hx => hlam x (List.mem_of_mem_drop hx)) (fun prev hprev x hx => by
        cases hprev
        exact hpi x (List.mem_of_mem_take hx))
      (gap + Linear.sum (mul (lam.take s.nc) (t.take s.nc))) (gap₀ + Linear.sum (mul (lam₀.take s.nc) (t.take s.nc)))
      (gap₁ + Linear.sum (mul (lam.take s.nc) (t.take s.nc)))
    rw [← List.drop_zipWith] at hback
    calc
      _ = pairing (w.take s.nv ++ w.drop s.nv) (pi.take s.ne ++ pi.drop s.ne)
            (mul s.signs (lam.take s.nc) ++ mul (rowSigns stages) (lam.drop s.nc))
            (residualsFrom (s :: stages) ⟨v, pi, lam, t⟩ e gap) (residualsFrom (s :: stages) ⟨v, pi₀, lam₀, t⟩ e₀ gap₀)
            (residualsFrom (s :: stages) ⟨List.zipWith (· + ·) v w, pi, lam, t⟩ e gap₁) := by
        rw [List.take_append_drop, List.take_append_drop, signed_cons h.sized.lam_le]
      _ = crossing (s.step.elim 0 Step.nu) (some (pi.take s.ne)) (w.drop s.nv) - crossing s.nu e (w.take s.nv)
            + -crossing (firstInputs stages) (some (pi.take s.ne)) (w.drop s.nv) := by
        rw [residualsFrom_cons, residualsFrom_cons, residualsFrom_cons]
        refine (pairing_before hhead f.pi hsigned (f.holds gap) (f₀.holds gap₀) (f₁.holds gap₁) ..).trans ?_
        exact congrArg₂ (· + ·) hfront hback
      _ = -crossing (firstInputs (s :: stages)) e w := by
        rw [step_inputs h.linked.2.1, crossing_take (he s rfl), show firstInputs (s :: stages) = s.nu from rfl]
        ring

/-- The value at `w` and `z` of the bilinear form of the quadratic costs of all stages. -/
def curvature : List (Stage K) → List K → List K → K
  | [], _, _ => 0
  | s :: stages, w, z => s.curvature (w.take s.nv) (z.take s.nv) + curvature stages (w.drop s.nv) (z.drop s.nv)

theorem curvature_comm (stages : List (Stage K)) (w z : List K) : curvature stages w z = curvature stages z w := by
  induction stages generalizing w z with
  | nil => rfl
  | cons s stages ih => rw [curvature, curvature, s.curvature_comm, ih]

/-- The change of the stationarity along `z` comes from the quadratic costs. -/
theorem walk_costs {stages : List (Stage K)} {v pi lam t w z : List K} {e : Option (List K)}
    (h : Suits stages ⟨v, pi, lam, t⟩) (he : Enters stages e) (hw : w.length = v.length) (hz : z.length = v.length)
    (gap gap₁ : K) :
    dot w (List.zipWith (· - ·) (residualsFrom stages ⟨List.zipWith (· + ·) v z, pi, lam, t⟩ e gap₁).stationarity
        (residualsFrom stages ⟨v, pi, lam, t⟩ e gap).stationarity) = curvature stages w z := by
  induction stages generalizing v pi lam t w z e gap gap₁ with
  | nil =>
    rw [List.eq_nil_of_length_eq_zero (hw.trans h.sized.ux), Linear.dot_nil]
    rfl
  | cons s stages ih =>
    have h₁ : Suits (s :: stages) ⟨List.zipWith (· + ·) v z, pi, lam, t⟩ :=
      h.resized (by rw [List.length_zipWith, hz, Nat.min_self]) rfl rfl rfl
    have f := h.first he
    have f₁ := h₁.first he
    have hw' : (w.take s.nv).length = s.nv := List.length_take_of_le (by rw [hw]; exact h.sized.ux_le)
    have hz' : (z.take s.nv).length = s.nv := List.length_take_of_le (by rw [hz]; exact h.sized.ux_le)
    have hfront := f.pairing_costs f₁ hw' hz' List.take_zipWith rfl rfl gap gap₁
    have hback := ih h.rest h.enters (w := w.drop s.nv) (z := z.drop s.nv) (by simp only [List.length_drop, hw])
      (by simp only [List.length_drop, hz]) (gap + Linear.sum (mul (lam.take s.nc) (t.take s.nc)))
      (gap₁ + Linear.sum (mul (lam.take s.nc) (t.take s.nc)))
    rw [← List.drop_zipWith] at hback
    have hsplit := Linear.dot_minus_append hw' (f₁.holds gap₁).stationarity (f.holds gap).stationarity (w.drop s.nv)
      (behind s stages ⟨List.zipWith (· + ·) v z, pi, lam, t⟩ gap₁).stationarity
      (behind s stages ⟨v, pi, lam, t⟩ gap).stationarity
    rw [List.take_append_drop] at hsplit
    rw [residualsFrom_cons, residualsFrom_cons, curvature]
    exact hsplit.trans (congrArg₂ (· + ·) hfront hback)

/-- The equations and the rows depend on the point and the slacks alone. -/
theorem walk_rows (stages : List (Stage K)) (v t pi pi₀ lam lam₀ : List K) (e e₀ : Option (List K)) (gap gap₀ : K) :
    (residualsFrom stages ⟨v, pi, lam, t⟩ e gap).equations = (residualsFrom stages ⟨v, pi₀, lam₀, t⟩ e₀ gap₀).equations ∧
    (residualsFrom stages ⟨v, pi, lam, t⟩ e gap).inequalities =
      (residualsFrom stages ⟨v, pi₀, lam₀, t⟩ e₀ gap₀).inequalities := by
  induction stages generalizing v t pi pi₀ lam lam₀ e e₀ gap gap₀ with
  | nil => exact ⟨rfl, rfl⟩
  | cons s stages ih =>
    rcases ih (v.drop s.nv) (t.drop s.nc) (pi.drop s.ne) (pi₀.drop s.ne) (lam.drop s.nc) (lam₀.drop s.nc)
      (some (pi.take s.ne)) (some (pi₀.take s.ne)) (gap + Linear.sum (mul (lam.take s.nc) (t.take s.nc)))
      (gap₀ + Linear.sum (mul (lam₀.take s.nc) (t.take s.nc))) with ⟨heq, hrow⟩
    exact ⟨congrArg (_ ++ ·) heq, congrArg (_ ++ ·) hrow⟩

/-- The residuals are as long as the parts of the iterate that they pair with. -/
theorem Suits.lengths {stages : List (Stage K)} {it : Iterate K} (h : Suits stages it) :
    (stageResiduals stages it).stationarity.length = it.ux.length ∧
      (stageResiduals stages it).equations.length = it.pi.length ∧
      (stageResiduals stages it).inequalities.length = it.lam.length := by
  rcases residualsFrom_covers h (enters_none stages) 0 with ⟨hg, hb, hd, -⟩
  exact ⟨hg.trans h.sized.ux.symm, hb.trans h.sized.pi.symm, hd.trans h.sized.lam.symm⟩

/-- An update that answers also answers for any other iterate of the same lengths. -/
theorem Workspace.update_resized [Stored K] [FixedWidth K] {q : Qp K} (h : q.Laid) {work r : Workspace K} {it it' : Iterate K}
    (hu : work.update q it = .ok r) (hux : it'.ux.length = it.ux.length) (hpi : it'.pi.length = it.pi.length)
    (hlam : it'.lam.length = it.lam.length) (ht : it'.t.length = it.t.length) :
    work.update q it' = .ok { work with residuals := stageResiduals q.stages it' } := by
  rcases (update_eq_ok h).mp hu with ⟨hwork, hfits, -⟩
  exact (update_eq_ok h).mpr ⟨hwork, hfits.resized hux hpi hlam ht, rfl⟩

namespace Qp

variable [Stored K] [FixedWidth K]

/-- Over exact arithmetic the multipliers of an update pull through the transpose of what moves
    the equations and the rows, and the costs pull symmetrically, whatever the index arrays. -/
theorem update_adjoint {q : Qp K} (h : q.Obtained) {work r : Workspace K} {v pi lam t w z : List K}
    (hu : work.update q ⟨v, pi, lam, t⟩ = .ok r) (hw : w.length = v.length) (hz : z.length = v.length) :
    ∃ (stages : List (Stage K)) (r₀ r₁ r₂ : Workspace K),
      q.stages? = some stages ∧ (rowSigns stages).length = lam.length ∧
      work.update q ⟨v, List.replicate pi.length 0, List.replicate lam.length 0, t⟩ = .ok r₀ ∧
      work.update q ⟨List.zipWith (· + ·) v w, pi, lam, t⟩ = .ok r₁ ∧
      work.update q ⟨List.zipWith (· + ·) v z, pi, lam, t⟩ = .ok r₂ ∧
      (∀ a ∈ [r, r₀, r₁, r₂], a.residuals.stationarity.length = v.length ∧ a.residuals.equations.length = pi.length ∧
        a.residuals.inequalities.length = lam.length) ∧
      r₀.residuals.equations = r.residuals.equations ∧ r₀.residuals.inequalities = r.residuals.inequalities ∧
      dot w (List.zipWith (· - ·) r.residuals.stationarity r₀.residuals.stationarity) =
        -dot pi (List.zipWith (· - ·) r₁.residuals.equations r.residuals.equations)
          - dot (mul (rowSigns stages) lam) (List.zipWith (· - ·) r₁.residuals.inequalities r.residuals.inequalities) ∧
      dot w (List.zipWith (· - ·) r₂.residuals.stationarity r.residuals.stationarity) =
        dot z (List.zipWith (· - ·) r₁.residuals.stationarity r.residuals.stationarity) := by
  have hl := h.laid
  rcases (Workspace.update_eq_ok hl).mp hu with ⟨-, hfits, rfl⟩
  have hsuits := hl.suits hfits
  have hfirst := enters_none q.stages
  have hsum : ∀ x : List K, x.length = v.length → (List.zipWith (· + ·) v x).length = v.length := fun x hx => by
    rw [List.length_zipWith, hx, Nat.min_self]
  have hsuits₀ : Suits q.stages ⟨v, List.replicate pi.length 0, List.replicate lam.length 0, t⟩ :=
    hsuits.resized rfl List.length_replicate List.length_replicate rfl
  have hsuits₁ : Suits q.stages ⟨List.zipWith (· + ·) v w, pi, lam, t⟩ := hsuits.resized (hsum w hw) rfl rfl rfl
  have hsuits₂ : Suits q.stages ⟨List.zipWith (· + ·) v z, pi, lam, t⟩ := hsuits.resized (hsum z hz) rfl rfl rfl
  rcases walk_rows q.stages v t (List.replicate pi.length 0) pi (List.replicate lam.length 0) lam none none 0 0 with
    ⟨hequations, hrows⟩
  refine ⟨q.stages, _, _, _, hl.stages?_eq, (length_rowSigns _).trans hsuits.sized.lam.symm,
    Workspace.update_resized hl hu rfl List.length_replicate List.length_replicate rfl,
    Workspace.update_resized hl hu (hsum w hw) rfl rfl rfl, Workspace.update_resized hl hu (hsum z hz) rfl rfl rfl, ?_,
    hequations, hrows, ?_, ?_⟩
  · intro a ha
    simp only [List.mem_cons, List.not_mem_nil, or_false] at ha
    rcases ha with rfl | rfl | rfl | rfl
    · exact hsuits.lengths
    · exact (hsuits₀.lengths).imp id (And.imp (·.trans List.length_replicate) (·.trans List.length_replicate))
    · exact (hsuits₁.lengths).imp (·.trans (hsum w hw)) id
    · exact (hsuits₂.lengths).imp (·.trans (hsum z hz)) id
  · have hpair := walk_pairing hsuits hfirst hw List.length_replicate List.length_replicate hfirst
      (fun x hx => List.eq_of_mem_replicate hx) (fun x hx => List.eq_of_mem_replicate hx)
      (fun _ hprev => by cases hprev) 0 0 0
    rw [pairing, show crossing (firstInputs q.stages) none w = 0 from rfl] at hpair
    simp only [stageResiduals]
    linear_combination hpair
  · have hwz := walk_costs hsuits hfirst hw hz 0 0
    have hzw := walk_costs hsuits hfirst hz hw 0 0
    exact hwz.trans ((curvature_comm _ w z).trans hzw.symm)

/-- Two bounds on one state, and two slacks on the first of them. -/
theorem update_adjoint_softened : ∃ (q : Qp ℚ) (stages : List (Stage ℚ)) (r r₀ r₁ : Workspace ℚ),
    q.dims = ⟨1, [1, 1], [1, 0], [2, 0], [1, 0], [1, 0], [1, 0], [2, 0]⟩ ∧
    q.words .idxb 0 = [1, 1] ∧ q.words .idxs 0 = [0, 0] ∧ q.stages? = some stages ∧
    Workspace.update ⟨q.dims, ⟨[], [], [], [], 0⟩⟩ q
      ⟨[1, 2, 3, 4, 5, 6, 7], [8], [1, 2, 3, 4, 5, 6, 7, 8, 9, 10], [1, 1, 1, 1, 1, 2, 2, 2, 2, 2]⟩ = .ok r ∧
    Workspace.update ⟨q.dims, ⟨[], [], [], [], 0⟩⟩ q
      ⟨[1, 2, 3, 4, 5, 6, 7], [0], [0, 0, 0, 0, 0, 0, 0, 0, 0, 0], [1, 1, 1, 1, 1, 2, 2, 2, 2, 2]⟩ = .ok r₀ ∧
    Workspace.update ⟨q.dims, ⟨[], [], [], [], 0⟩⟩ q
      ⟨[2, 4, 6, 8, 10, 12, 14], [8], [1, 2, 3, 4, 5, 6, 7, 8, 9, 10], [1, 1, 1, 1, 1, 2, 2, 2, 2, 2]⟩ = .ok r₁ ∧
    dot [1, 2, 3, 4, 5, 6, 7] (List.zipWith (· - ·) r.residuals.stationarity r₀.residuals.stationarity) =
      -dot [8] (List.zipWith (· - ·) r₁.residuals.equations r.residuals.equations)
        - dot (mul (rowSigns stages) [1, 2, 3, 4, 5, 6, 7, 8, 9, 10])
          (List.zipWith (· - ·) r₁.residuals.inequalities r.residuals.inequalities) := by
  rcases exists_softened with ⟨q, hr, hdims, hidxb, hidxs, hlastb, hlasts⟩
  have hu : Workspace.update ⟨q.dims, ⟨[], [], [], [], 0⟩⟩ q
      ⟨[1, 2, 3, 4, 5, 6, 7], [8], [1, 2, 3, 4, 5, 6, 7, 8, 9, 10], [1, 1, 1, 1, 1, 2, 2, 2, 2, 2]⟩ = .ok _ :=
    (Workspace.update_eq_ok hr.bound.toLaid).mpr ⟨Workspace.checkDims_self hr.bound.toLaid,
      fits_softened hdims hidxb hidxs hlastb hlasts rfl rfl rfl rfl, rfl⟩
  rcases update_adjoint hr.obtained hu (w := [1, 2, 3, 4, 5, 6, 7]) (z := [0, 0, 0, 0, 0, 0, 0]) rfl rfl with
    ⟨stages, r₀, r₁, -, hstages, -, hu₀, hu₁, -, -, -, -, hpull, -⟩
  have hsum : List.zipWith (· + ·) [1, 2, 3, 4, 5, 6, 7] [1, 2, 3, 4, 5, 6, 7] = ([2, 4, 6, 8, 10, 12, 14] : List ℚ) := by
    norm_num
  rw [hsum] at hu₁
  exact ⟨q, stages, _, r₀, r₁, hdims, hidxb, hidxs, hstages, hu, hu₀, hu₁, hpull⟩

end Qp

end HorizonQp
