/-
  HorizonQp.Proofs.Dense.Residuals — the residuals of a dense problem, from what a user reads.

  Over a field an update leaves the sums that `HorizonQp.Residual.Dense` lists
  (`DenseQp.Formulas`), with the bounds of the four sides as `DenseQp.get` returns them: the
  upper ones lie negated in the problem and are compared with their own sign
  (`update_gives_formulas`). Several bounds may be on one variable; each adds its own
  multipliers to the entry of that variable.

  A row of a lower side is the bound and the slack less the value, one of an upper side the
  bound less the value and the slack. So the inequality residual vanishes exactly where every
  slack is the distance of the value from its bound (`Formulas.inequalities_vanish_iff`).
-/

import HorizonQp.Proofs.Dense.Formula
import HorizonQp.Proofs.Exact.Rational

namespace HorizonQp

open Finset (range)

namespace Side

variable {K : Type} [ExactField K] {side : Side}

theorem add_sign_mul_of_lower (h : side.isUpper = false) (a x : K) : a + side.sign * x = a + x := by
  rw [sign, h, if_neg Bool.false_ne_true, one_mul]

theorem add_sign_mul_of_upper (h : side.isUpper = true) (a x : K) : a + side.sign * x = a - x := by
  rw [sign, h, if_pos rfl, neg_one_mul, sub_eq_add_neg]

end Side

namespace DenseQp

/-- The residuals `r` at `it`, with `bounds` the bounds of each side. -/
structure Formulas {K : Type} [ExactField K] (q : DenseQp K) (bounds : Side → List K) (it : DenseIterate K)
    (r : Residuals K) : Prop where
  length_stationarity : r.stationarity.length = q.dims.nv
  length_equations : r.equations.length = q.dims.ne
  length_inequalities : r.inequalities.length = q.dims.nc
  length_complementarity : r.complementarity.length = q.dims.nc
  stationarity : ∀ i < q.dims.nv, r.stationarity.getD i 0 =
    ∑ j ∈ range q.dims.nv, (if j ≤ i then q.H.entry i j else q.H.entry j i) * it.v.getD j 0 + q.g.getD i 0
      - ∑ j ∈ range q.dims.ne, q.A.entry j i * it.pi.getD j 0
      + (∑ k ∈ range q.dims.nb, if q.idxb.getD k 0 = i
          then (Side.lb.part q.dims it.lam).getD k 0 - (Side.ub.part q.dims it.lam).getD k 0 else 0)
      + ∑ k ∈ range q.dims.ng,
          q.Ct.entry i k * ((Side.lg.part q.dims it.lam).getD k 0 - (Side.ug.part q.dims it.lam).getD k 0)
  equations : ∀ i < q.dims.ne, r.equations.getD i 0 =
    ∑ j ∈ range q.dims.nv, q.A.entry i j * it.v.getD j 0 - q.b.getD i 0
  lowerBounds : ∀ k < q.dims.nb, (Side.lb.part q.dims r.inequalities).getD k 0 =
    -it.v.getD (q.idxb.getD k 0) 0 + (bounds .lb).getD k 0 + (Side.lb.part q.dims it.t).getD k 0
  lowerGeneral : ∀ k < q.dims.ng, (Side.lg.part q.dims r.inequalities).getD k 0 =
    -∑ i ∈ range q.dims.nv, q.Ct.entry i k * it.v.getD i 0 + (bounds .lg).getD k 0
      + (Side.lg.part q.dims it.t).getD k 0
  upperBounds : ∀ k < q.dims.nb, (Side.ub.part q.dims r.inequalities).getD k 0 =
    -it.v.getD (q.idxb.getD k 0) 0 + (bounds .ub).getD k 0 - (Side.ub.part q.dims it.t).getD k 0
  upperGeneral : ∀ k < q.dims.ng, (Side.ug.part q.dims r.inequalities).getD k 0 =
    -∑ i ∈ range q.dims.nv, q.Ct.entry i k * it.v.getD i 0 + (bounds .ug).getD k 0
      - (Side.ug.part q.dims it.t).getD k 0
  complementarity : ∀ i < q.dims.nc, r.complementarity.getD i 0 = it.lam.getD i 0 * it.t.getD i 0 - q.m.getD i 0
  mu : r.mu = if 0 < q.dims.nc
    then (∑ i ∈ range q.dims.nc, it.lam.getD i 0 * it.t.getD i 0) / ((2 * q.dims.nb + 2 * q.dims.ng : Nat) : K) else 0

section Formulas

variable {K : Type} [ExactField K] {q : DenseQp K} {bounds : Side → List K} {it : DenseIterate K} {r : Residuals K}

/-- A row of either side, the slack with the sign of the side. -/
theorem Formulas.row (h : q.Formulas bounds it r) (side : Side) {k : Nat} (hk : k < side.length q.dims) :
    (side.part q.dims r.inequalities).getD k 0 =
      -q.constraint it.v side k + (bounds side).getD k 0 + side.sign * (side.part q.dims it.t).getD k 0 := by
  cases side with
  | lb => exact (h.lowerBounds k hk).trans (Side.add_sign_mul_of_lower rfl _ _).symm
  | lg => exact (h.lowerGeneral k hk).trans (Side.add_sign_mul_of_lower rfl _ _).symm
  | ub => exact (h.upperBounds k hk).trans (Side.add_sign_mul_of_upper rfl _ _).symm
  | ug => exact (h.upperGeneral k hk).trans (Side.add_sign_mul_of_upper rfl _ _).symm

/-- The inequality residual vanishes when all rows of all sides do. -/
theorem inequalities_vanish_iff_rows (hlen : r.inequalities.length = q.dims.nc) :
    (∀ x ∈ r.inequalities, x = 0) ↔
      ∀ side : Side, ∀ k < side.length q.dims, (side.part q.dims r.inequalities).getD k 0 = 0 := by
  constructor
  · intro hzero side k hk
    rw [Side.part_entry _ _ _ _ hk]
    exact Linear.getD_eq_zero hzero _
  · intro hrows x hx
    rcases List.mem_iff_getElem.mp hx with ⟨i, hi, rfl⟩
    rcases Side.exists_row q.dims (hlen ▸ hi) with ⟨side, k, hk, rfl⟩
    rw [← List.getD_eq_getElem _ 0 hi, ← Side.part_entry _ _ _ _ hk]
    exact hrows side k hk

/-- The inequality residual vanishes exactly where every slack is the true one. -/
theorem Formulas.inequalities_vanish_iff (h : q.Formulas bounds it r) :
    (∀ x ∈ r.inequalities, x = 0) ↔
      ∀ side : Side, ∀ k < side.length q.dims, (side.part q.dims it.t).getD k 0 =
        if side.isUpper then (bounds side).getD k 0 - q.constraint it.v side k
        else q.constraint it.v side k - (bounds side).getD k 0 := by
  rw [inequalities_vanish_iff_rows h.length_inequalities]
  refine forall_congr' fun side => forall_congr' fun k => forall_congr' fun hk => ?_
  rw [h.row side hk]
  split
  case isTrue hup => rw [Side.add_sign_mul_of_upper hup, sub_eq_zero, eq_comm, neg_add_eq_sub]
  case isFalse hlow =>
    rw [Side.add_sign_mul_of_lower (Bool.eq_false_of_not_eq_true hlow), add_comm, add_eq_zero_iff_eq_neg, neg_add, neg_neg,
      ← sub_eq_add_neg]

end Formulas

/-! ## What an update leaves -/

section Update

variable {K : Type} [ExactField K] {q : DenseQp K} {it : DenseIterate K}

theorem hessian_eq (q : DenseQp K) (i j : Nat) :
    q.hessian i j = if j ≤ i then q.H.entry i j else q.H.entry j i := by
  simp only [hessian, Linear.View.entry, Linear.View.index, Linear.View.source]
  split <;> rfl

/-- A problem that fits gives every side its bounds, with their own sign. -/
theorem get_of_fits (h : q.Fits it) (side : Side) :
    q.get side (side.length q.dims) = .ok (signed side (side.part q.dims q.d)) := by
  have hin : side.start q.dims + side.length q.dims ≤ q.d.length := h.d ▸ side.start_add_length_le h.counted
  have hpart : (q.d.drop (side.start q.dims)).take (side.length q.dims) = side.part q.dims q.d := by
    rw [side.start_eq h.counted, Side.part]
  refine Attempt.bind_eq_ok.mpr (Attempt.check_eq_ok.mpr ⟨checkLength_eq_ok.mpr rfl, ?_⟩)
  rw [if_pos hin, hpart, Attempt.pure_eq_ok]

variable [DecidableEq K]

theorem formulas (h : q.Fits it) :
    q.Formulas (fun side => signed side (side.part q.dims q.d)) it (q.residuals it) := by
  have row (side : Side) {k : Nat} (hk : k < side.length q.dims) :
      (side.part q.dims (q.inequalities it)).getD k 0 =
        -q.constraint it.v side k + q.bound side k + side.sign * (side.part q.dims it.t).getD k 0 := by
    rw [Side.part_entry _ _ _ _ hk, Side.part_entry _ _ _ _ hk, inequalities_entry h side hk]
  constructor
  case length_stationarity => exact length_stationarity h
  case length_equations => exact length_equations h
  case length_inequalities => exact length_inequalities h
  case length_complementarity => exact length_complementarity h
  case stationarity =>
    intro i hi
    have hnet (low up : Side) {k : Nat} (hlow : k < low.length q.dims) (hup : k < up.length q.dims) :
        q.net it.lam low up k = (low.part q.dims it.lam).getD k 0 - (up.part q.dims it.lam).getD k 0 := by
      rw [net, Side.part_entry _ _ _ _ hlow, Side.part_entry _ _ _ _ hup]
    rw [residuals, stationarity_entry h hi]
    simp only [hessian_eq]
    congr 1
    · congr 1
      refine Finset.sum_congr rfl fun k hk => ?_
      rw [hnet .lb .ub (Finset.mem_range.mp hk) (Finset.mem_range.mp hk)]
    · refine Finset.sum_congr rfl fun k hk => ?_
      rw [hnet .lg .ug (Finset.mem_range.mp hk) (Finset.mem_range.mp hk)]
  case equations => exact fun i hi => equations_entry h hi
  case lowerBounds => exact fun k hk => (row .lb hk).trans (Side.add_sign_mul_of_lower rfl _ _)
  case lowerGeneral => exact fun k hk => (row .lg hk).trans (Side.add_sign_mul_of_lower rfl _ _)
  case upperBounds => exact fun k hk => (row .ub hk).trans (Side.add_sign_mul_of_upper rfl _ _)
  case upperGeneral => exact fun k hk => (row .ug hk).trans (Side.add_sign_mul_of_upper rfl _ _)
  case complementarity => exact fun i _ => complementarity_entry h i
  case mu =>
    rw [residuals, gap_eq h, h.counted.nc_eq, Nat.mul_add]
    split
    case isTrue => rfl
    case isFalse hnone =>
      rw [Nat.eq_zero_of_not_pos hnone, Finset.sum_range_zero, zero_div]

end Update

end DenseQp

namespace DenseWorkspace

variable {K : Type} [ExactField K] [DecidableEq K]

/-- An update of what fits leaves the residuals of the formulas, whose inequality rows vanish
    exactly where every slack is the true one. -/
theorem update_gives_formulas {w : DenseWorkspace K} {q : DenseQp K} {it : DenseIterate K} (hw : w.dims = q.dims)
    (h : q.Fits it) :
    ∃ (r : Residuals K) (bounds : Side → List K),
      w.update q it = .ok { w with residuals := r } ∧
      (∀ side, q.get side (side.length q.dims) = .ok (bounds side)) ∧
      q.Formulas bounds it r ∧
      ((∀ x ∈ r.inequalities, x = 0) ↔
        ∀ side : Side, ∀ k < side.length q.dims, (side.part q.dims it.t).getD k 0 =
          if side.isUpper then (bounds side).getD k 0 - q.constraint it.v side k
          else q.constraint it.v side k - (bounds side).getD k 0) :=
  ⟨q.residuals it, fun side => DenseQp.signed side (side.part q.dims q.d), update_eq_ok.mpr ⟨hw, h, rfl⟩,
    DenseQp.get_of_fits h, DenseQp.formulas h, (DenseQp.formulas h).inequalities_vanish_iff⟩

end DenseWorkspace

/-! ## Two bounds on one variable -/

/-- Two variables, of which the second is bounded twice, on one equation and with one general
    constraint. The upper triangle of the Hessian holds another number. -/
def DenseQp.twiceBounded : DenseQp ℚ where
  dims := ⟨2, 1, 2, 1⟩
  H := ⟨2, 2, [2, 1, 99, 4]⟩
  g := [1, 1]
  A := ⟨1, 2, [1, 1]⟩
  b := [3]
  Ct := ⟨2, 1, [1, 2]⟩
  idxb := [1, 1]
  d := [0, 1, 0, -5, -4, -9]
  m := [0, 0, 0, 0, 0, 0]

/-- Room for the residuals of that problem. -/
def DenseWorkspace.twiceBounded : DenseWorkspace ℚ := ⟨⟨2, 1, 2, 1⟩, ⟨[], [], [], [], 0⟩⟩

theorem DenseWorkspace.update_gives_formulas_twice_bounded :
    ∃ (r : Residuals ℚ) (bounds : Side → List ℚ),
      DenseWorkspace.twiceBounded.update DenseQp.twiceBounded ⟨[1, 2], [1], [1, 2, 3, 4, 5, 6], [2, 1, 5, 3, 2, 1]⟩ =
        .ok ⟨⟨2, 1, 2, 1⟩, r⟩ ∧
      DenseQp.twiceBounded.get .ub 2 = .ok (bounds .ub) ∧ bounds .ub = [5, 4] ∧
      r = ⟨[1, -3], [0], [0, 0, 0, 0, 0, 3], [2, 2, 15, 12, 10, 6], 47 / 6⟩ := by
  have h : DenseQp.twiceBounded.Fits ⟨[1, 2], [1], [1, 2, 3, 4, 5, 6], [2, 1, 5, 3, 2, 1]⟩ := by
    constructor
    all_goals decide
  rcases update_gives_formulas (w := .twiceBounded) rfl h with ⟨r, bounds, hu, hget, -, -⟩
  have hub : DenseQp.twiceBounded.get .ub 2 = .ok [5, 4] := by decide +kernel
  have hvalue : DenseWorkspace.twiceBounded.update DenseQp.twiceBounded
      ⟨[1, 2], [1], [1, 2, 3, 4, 5, 6], [2, 1, 5, 3, 2, 1]⟩ =
        .ok ⟨⟨2, 1, 2, 1⟩, ⟨[1, -3], [0], [0, 0, 0, 0, 0, 3], [2, 2, 15, 12, 10, 6], 47 / 6⟩⟩ := by decide +kernel
  refine ⟨r, bounds, hu, hget .ub, Except.ok.inj ((hget .ub).symm.trans hub), ?_⟩
  exact congrArg DenseWorkspace.residuals (Except.ok.inj (hu.symm.trans hvalue))

end HorizonQp
