/-
  HorizonQp.Proofs.Dense.Alike — dense problems that differ in what no residual refers to.

  Of the Hessian only the lower triangle is referred to, of everything else all. `Alike` says
  that two problems agree in this, `b`, `d` and `m` left open, and their residuals then agree
  to the bit as far as these vectors do (`Alike.residuals`).

  An update works in the vectors of its workspace here as well (`updateOver`): it writes over
  what they hold, or reads it with the factor zero, and leaves what `DenseWorkspace.update`
  computes from nothing (`updateOver_eq`).
-/

import HorizonQp.Proofs.Dense.Total
import HorizonQp.Proofs.Staged.Alike
import HorizonQp.Proofs.Staged.Over

namespace HorizonQp

open Linear (Matrix axpby gather mulDot axpby? gather? scatterAdd? mulDot?)

variable {α : Type}

/-! ## Two problems -/

/-- Problems of the same sizes that agree in what their residuals refer to, but for `b`, `d` and `m`. -/
structure DenseQp.Alike [Zero α] (q q' : DenseQp α) : Prop where
  dims : q'.dims = q.dims
  H_rows : q'.H.rows = q.H.rows
  H_cols : q'.H.cols = q.H.cols
  H_length : q'.H.data.length = q.H.data.length
  hessian : ∀ i < q.dims.nv, ∀ j ≤ i, q'.H.entry i j = q.H.entry i j
  g : q'.g = q.g
  A : q'.A = q.A
  Ct : q'.Ct = q.Ct
  idxb : q'.idxb = q.idxb
  b_length : q'.b.length = q.b.length
  d_length : q'.d.length = q.d.length
  m_length : q'.m.length = q.m.length

namespace DenseQp.Alike

variable {q q' : DenseQp α} {it : DenseIterate α}

theorem fits [Zero α] (a : q.Alike q') (h : q.Fits it) : q'.Fits it where
  counted := by rw [a.dims]; exact h.counted
  g := by rw [a.dims, a.g, h.g]
  b := by rw [a.dims, a.b_length, h.b]
  idxb := by rw [a.dims, a.idxb, h.idxb]
  idxb_lt := by rw [a.dims, a.idxb]; exact h.idxb_lt
  d := by rw [a.dims, a.d_length, h.d]
  m := by rw [a.dims, a.m_length, h.m]
  H_count := by rw [a.dims, Matrix.count, a.H_length, h.H_count, Matrix.count]
  A_count := by rw [a.dims, a.A, h.A_count]
  Ct_count := by rw [a.dims, a.Ct, h.Ct_count]
  H_rows := by rw [a.dims, a.H_rows]; exact h.H_rows
  H_cols := by rw [a.dims, a.H_cols, h.H_cols]
  H_filled := by rw [Matrix.Filled, a.H_rows, a.H_cols, a.H_length]; exact h.H_filled
  A_rows := by rw [a.dims, a.A, h.A_rows]
  A_cols := by rw [a.dims, a.A, h.A_cols]
  A_filled := by rw [a.A]; exact h.A_filled
  Ct_rows := by rw [a.dims, a.Ct, h.Ct_rows]
  Ct_cols := by rw [a.dims, a.Ct, h.Ct_cols]
  Ct_filled := by rw [a.Ct]; exact h.Ct_filled
  v := by rw [a.dims, h.v]
  pi := by rw [a.dims, h.pi]
  lam := by rw [a.dims, h.lam]
  t := by rw [a.dims, h.t]

variable [Scalar α] (a : q.Alike q') (h : q.Fits it)
include a

theorem inequalities (hd : q'.d = q.d) (it : DenseIterate α) : q'.inequalities it = q.inequalities it := by
  simp only [DenseQp.inequalities, inequalityRows, negatedValues, a.dims, a.Ct, a.idxb, hd]

theorem gap (it : DenseIterate α) : q'.gap it = q.gap it := by simp only [DenseQp.gap, a.dims]

include h

theorem costs : q'.costs it = q.costs it := by
  have hr := h.H_rows
  simp only [DenseQp.costs, a.A, a.g]
  rw [Matrix.symmetricProduct_congr (a.H_cols.trans h.H_cols) h.H_cols (by rw [a.H_rows]; exact hr) hr
    (fun i hi j _ hheld => a.hessian i hi j (Matrix.le_of_lower hheld)) 1
    h.v.symm 1 h.g.symm]

theorem stationarity : q'.stationarity it = q.stationarity it := by
  simp only [DenseQp.stationarity, multipliers, a.costs h, a.dims, a.Ct, a.idxb]

/-- The residuals agree as far as the data do that they refer to. -/
theorem residuals :
    Residuals.Agree (q'.b = q.b) (q'.d = q.d) (q'.m = q.m) (q.residuals it) (q'.residuals it) where
  stationarity := a.stationarity h
  mu := a.gap it
  equations hb := by simp only [DenseQp.residuals, DenseQp.equations, a.A, hb]
  inequalities hd := a.inequalities hd it
  complementarity hm := by simp only [DenseQp.residuals, DenseQp.complementarity, hm]

end DenseQp.Alike

/-- Where an update answers, it answers on a problem that agrees with the first, over any
    workspace for it, and the residuals agree as far as the data do that they refer to. -/
theorem DenseWorkspace.update_alike [Scalar α] {q q' : DenseQp α} (a : q.Alike q') {w w' r : DenseWorkspace α}
    {it : DenseIterate α} (hu : w.update q it = .ok r) (hw' : w'.dims = q'.dims) :
    ∃ r', w'.update q' it = .ok r' ∧
      Residuals.Agree (q'.b = q.b) (q'.d = q.d) (q'.m = q.m) r.residuals r'.residuals := by
  obtain ⟨-, hfits, rfl⟩ := update_eq_ok.mp hu
  exact ⟨_, update_eq_ok.mpr ⟨hw', a.fits hfits, rfl⟩, a.residuals hfits⟩

/-! ## One workspace -/

/-- The scratch vectors are as long as the dimensions say. -/
structure Scratch.Fills (scratch : Scratch α) (d : DenseDims) : Prop where
  bounds : scratch.bounds.length = d.nb
  general : scratch.general.length = d.ng

namespace DenseQp

variable [Scalar α]

def stationarityOver? (q : DenseQp α) (room : List α) (scratch : Scratch α) (it : DenseIterate α) :
    Option (List α) := do
  let r ← (← q.H.filled?).symmetricProduct? .lower 1 it.v 1 (← over? room q.g)
  let r ← (← q.A.filled?).transposedProduct? (-1) it.pi 1 r
  let r ← scatterAdd? 1 (← over? scratch.bounds (← q.multipliers? it .lb .ub)) q.idxb r
  (← q.Ct.filled?).product? 1 (← over? scratch.general (← q.multipliers? it .lg .ug)) 1 r

def equationsOver? (q : DenseQp α) (room : List α) (it : DenseIterate α) : Option (List α) := do
  (← q.A.filled?).product? 1 it.v (-1) (← over? room q.b)

/-- The rows over those held. The values of the general constraints go over the rows held for
    their lower side, and from there over those of the upper. -/
def inequalitiesOver? (q : DenseQp α) (room : List α) (it : DenseIterate α) : Option (List α) := do
  let bounds ← over? (← q.sidePart? .lb room) (← gather? q.dims.nb (-1) it.v q.idxb)
  let bounds' ← over? (← q.sidePart? .ub room) bounds
  let general ← (← q.Ct.filled?).transposedProduct? (-1) it.v 0 (← q.sidePart? .lg room)
  let general' ← over? (← q.sidePart? .ug room) general
  pure ((← q.inequalityRows? it .lb bounds) ++ (← q.inequalityRows? it .lg general) ++
    (← q.inequalityRows? it .ub bounds') ++ (← q.inequalityRows? it .ug general'))

/-- The residuals over those held, with the help of scratch vectors. -/
def residualsOver? (q : DenseQp α) (held : Residuals α) (scratch : Scratch α) (it : DenseIterate α) :
    Option (Residuals α) := do
  let stationarity ← q.stationarityOver? held.stationarity scratch it
  let equations ← q.equationsOver? held.equations it
  let inequalities ← q.inequalitiesOver? held.inequalities it
  let (products, sum) ← mulDot? held.complementarity.length it.lam it.t
  let complementarity ← axpby? (-1) q.m 1 (← over? held.complementarity products)
  pure ⟨stationarity, equations, inequalities, complementarity, meanGap q.dims sum⟩

variable {q : DenseQp α} {it : DenseIterate α} (h : q.Fits it)
include h

theorem stationarityOver?_eq {room : List α} (hroom : room.length = q.dims.nv) {scratch : Scratch α}
    (ht : scratch.Fills q.dims) : q.stationarityOver? room scratch it = some (q.stationarity it) := by
  have hbounds : (q.multipliers it .lb .ub).length = q.dims.nb := q.length_multipliers h.counted h.lam .lb .ub rfl
  have hgeneral : (q.multipliers it .lg .ug).length = q.dims.ng := q.length_multipliers h.counted h.lam .lg .ug rfl
  rw [← stationarity?_eq h, stationarityOver?, stationarity?, costs?, over?_eq (hroom.trans h.g),
    multipliers?_eq h.counted h.lam .lb .ub rfl, multipliers?_eq h.counted h.lam .lg .ug rfl]
  simp only [over?_eq (ht.bounds.trans hbounds.symm), over?_eq (ht.general.trans hgeneral.symm), Option.bind_eq_bind,
    Option.bind_some, Option.bind_assoc]

theorem equationsOver?_eq {room : List α} (hroom : room.length = q.dims.ne) :
    q.equationsOver? room it = some (q.equations it) := by
  rw [← equations?_eq h, equationsOver?, equations?, over?_eq (hroom.trans h.b)]
  rfl

/-- The factor zero keeps what the rows held out of the values of the general constraints. -/
theorem inequalitiesOver?_eq (hz : Scalar.isZero (0 : α) = true) {room : List α} (hroom : room.length = q.dims.nc) :
    q.inequalitiesOver? room it = some (q.inequalities it) := by
  have hpart (side : Side) := side.length_part h.counted hroom
  have hvalues (side : Side) := length_negatedValues h side
  have hrows (side : Side) := inequalityRows?_eq h.counted h.d h.t side (hvalues side)
  have hgeneral : q.Ct.transposedProduct (-1) it.v 0 (Side.part q.dims .lg room) =
      q.Ct.transposedProduct (-1) it.v 0 (List.replicate q.dims.ng 0) :=
    Matrix.transposedProduct_over hz _ _ ((hpart .lg).trans List.length_replicate.symm)
  have hlb := over?_eq ((hpart .lb).trans (hvalues .lb).symm)
  have hub := over?_eq ((hpart .ub).trans (hvalues .ub).symm)
  have hug := over?_eq ((hpart .ug).trans (hvalues .ug).symm)
  simp only [negatedValues] at hrows hlb hub hug
  simp only [inequalitiesOver?, sidePart?_eq h.counted _ hroom, gatherBounds?_eq h, hlb, hub,
    Matrix.filled?_eq h.Ct_filled, generalValues?_eq h (hpart .lg),
    hgeneral, hug, hrows .lb, hrows .lg, hrows .ub, hrows .ug, Option.bind_eq_bind, Option.bind_some]
  rfl

/-- A problem leaves its residuals, whatever was held. -/
theorem residualsOver?_eq (hz : Scalar.isZero (0 : α) = true) {held : Residuals α}
    (hheld : DenseWorkspace.Holds ⟨q.dims, held⟩) {scratch : Scratch α} (ht : scratch.Fills q.dims) :
    q.residualsOver? held scratch it = some (q.residuals it) := by
  have hm := hheld.complementarity
  have hproducts : mulDot? held.complementarity.length it.lam it.t = some (mulDot it.lam it.t) :=
    if_pos ⟨hm.trans h.lam, hm.trans h.t⟩
  have hlen : (mulDot it.lam it.t).1.length = q.dims.nc := (Linear.length_mul (h.lam.symm.trans h.t)).trans h.t.symm
  simp only [residualsOver?, stationarityOver?_eq h hheld.stationarity ht, equationsOver?_eq h hheld.equations,
    inequalitiesOver?_eq h hz hheld.inequalities, hproducts, over?_eq (hm.trans hlen.symm),
    complementarity?_eq h.m h.lam h.t, Option.bind_eq_bind, Option.bind_some]
  rfl

end DenseQp

namespace DenseWorkspace

variable [Scalar α]

/-- The residuals of `q` at `it`, over those held, with the help of scratch vectors. -/
def updateOver (w : DenseWorkspace α) (scratch : Scratch α) (q : DenseQp α) (it : DenseIterate α) :
    Attempt QpError (DenseWorkspace α) := do
  .ofExcept (q.check w.dims it)
  let residuals ← .require (q.residualsOver? w.residuals scratch it)
  pure { w with residuals }

/-- Whatever a workspace and its scratch vectors hold, an update that answers leaves the same. -/
theorem updateOver_eq (hz : Scalar.isZero (0 : α) = true) {w r : DenseWorkspace α} {q : DenseQp α} {it : DenseIterate α}
    (hu : w.update q it = .ok r) (hw : w.Holds) {scratch : Scratch α} (ht : scratch.Fills w.dims) :
    w.updateOver scratch q it = .ok r := by
  obtain ⟨hdims, hfits, rfl⟩ := update_eq_ok.mp hu
  have hcheck : q.check w.dims it = .ok () := by
    rw [update, Attempt.bind_eq_ok, Attempt.check_eq_ok] at hu
    exact hu.1
  obtain ⟨dims, held⟩ := w
  subst hdims
  rw [updateOver, hcheck, DenseQp.residualsOver?_eq hfits hz hw ht]
  rfl

end DenseWorkspace

end HorizonQp
