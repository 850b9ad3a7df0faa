/-
  HorizonQp.Residual.Dense — the residuals of a dense problem.

  With `P` the matrix that puts entry `j` at variable `idxb[j]`:

    stationarity     H v + g - A'pi + P (lam_lb - lam_ub) + Ct (lam_lg - lam_ug)
    equations        A v - b
    inequalities     [-v[idxb] + lb + t_lb;  -Ct'v + lg + t_lg;
                      -v[idxb] + ub - t_ub;  -Ct'v + ug - t_ug]
    complementarity  lam .* t - m
    mu               sum (lam .* t) / (2 nb + 2 ng), or zero without inequalities

  `lam` and `t` are packed like `d`. The checks come first, in the order of `check`:
  whether the workspace is for these dimensions, whether every array of the problem has
  its length and every bounded variable exists, then the lengths of the iterate. A matrix
  may have as many entries as the dimensions say and yet another shape; its product has
  no answer. So has every kernel whose operands do not match. The number of entries is a
  word: a matrix that lacks entries of its shape may pass as well, and no kernel can walk
  it.
-/

import HorizonQp.Dense
import HorizonQp.Linear.Product
import HorizonQp.Residual.Norms

namespace HorizonQp

open Linear (axpby? gather? scatterAdd? mulDot? Triangle)
open Word (wrap)

/-- A point with multipliers `pi` of the equations, and multipliers `lam` and slacks `t`
    of the inequalities. -/
structure DenseIterate (α : Type) where
  v : List α
  pi : List α
  lam : List α
  t : List α
  deriving DecidableEq, Repr

/-- Room for the residuals of a problem of dimensions `dims`. -/
structure DenseWorkspace (α : Type) where
  dims : DenseDims
  residuals : Residuals α
  deriving DecidableEq, Repr

namespace DenseWorkspace

/-- A workspace of zeros, which also needs room for the multipliers of the bounds and of the
    general constraints. -/
def new? {α : Type} [Zero α] [Stored α] (d : DenseDims) : Option (DenseWorkspace α) :=
  if Word.allocates (Stored.width α) d.nb ∧ Word.allocates (Stored.width α) d.ng then do
    pure ⟨d, ← Residuals.zeros? d.nv d.ne d.nc⟩
  else none

end DenseWorkspace

namespace DenseQp

variable {α : Type}

def checkDims (work dims : DenseDims) : Except QpError Unit := do
  checkLength work.nv dims.nv
  checkLength work.ne dims.ne
  checkLength work.nb dims.nb
  checkLength work.ng dims.ng

def checkData (q : DenseQp α) : Except QpError Unit := do
  let d := q.dims
  checkLength d.nv q.g.length
  checkLength d.ne q.b.length
  checkLength d.nb q.idxb.length
  checkIndices q.idxb d.nv
  checkLength d.nc q.d.length
  checkLength d.nc q.m.length
  checkLength (wrap (d.nv * d.nv)) q.H.count
  checkLength (wrap (d.ne * d.nv)) q.A.count
  checkLength (wrap (d.nv * d.ng)) q.Ct.count

def checkIterate (d : DenseDims) (it : DenseIterate α) : Except QpError Unit := do
  checkLength d.nv it.v.length
  checkLength d.ne it.pi.length
  checkLength d.nc it.lam.length
  checkLength d.nc it.t.length

def check (q : DenseQp α) (work : DenseDims) (it : DenseIterate α) : Except QpError Unit := do
  checkDims work q.dims
  q.checkData
  checkIterate q.dims it

variable [Scalar α]

/-- The part of `x` that belongs to the side, which has to be there. -/
def sidePart? (q : DenseQp α) (side : Side) (x : List α) : Option (List α) :=
  if side.offset q.dims + side.length q.dims ≤ x.length then some (side.part q.dims x) else none

/-- The differences of the multipliers of two sides. -/
def multipliers? (q : DenseQp α) (it : DenseIterate α) (low up : Side) : Option (List α) := do
  axpby? 1 (← q.sidePart? low it.lam) (-1) (← q.sidePart? up it.lam)

/-- The part of the stationarity residual that the costs and the equations make up. -/
def costs? (q : DenseQp α) (it : DenseIterate α) : Option (List α) := do
  let r ← (← q.H.filled?).symmetricProduct? .lower 1 it.v 1 q.g
  (← q.A.filled?).transposedProduct? (-1) it.pi 1 r

def stationarity? (q : DenseQp α) (it : DenseIterate α) : Option (List α) := do
  let r ← q.costs? it
  let r ← scatterAdd? 1 (← q.multipliers? it .lb .ub) q.idxb r
  (← q.Ct.filled?).product? 1 (← q.multipliers? it .lg .ug) 1 r

def equations? (q : DenseQp α) (it : DenseIterate α) : Option (List α) := do
  (← q.A.filled?).product? 1 it.v (-1) q.b

/-- The rows of a side, from the negated values of its constraints. -/
def inequalityRows? (q : DenseQp α) (it : DenseIterate α) (side : Side) (negated : List α) : Option (List α) := do
  let sign : α := if side.isUpper then -1 else 1
  axpby? sign (← q.sidePart? side it.t) 1 (← axpby? sign (← q.sidePart? side q.d) 1 negated)

def inequalities? (q : DenseQp α) (it : DenseIterate α) : Option (List α) := do
  let bounds ← gather? q.dims.nb (-1) it.v q.idxb
  let general ← (← q.Ct.filled?).transposedProduct? (-1) it.v 0 (List.replicate q.dims.ng 0)
  pure ((← q.inequalityRows? it .lb bounds) ++ (← q.inequalityRows? it .lg general) ++
    (← q.inequalityRows? it .ub bounds) ++ (← q.inequalityRows? it .ug general))

/-- The mean over all rows of the products that sum up to `sum`. -/
def meanGap (d : DenseDims) (sum : α) : α := if 0 < d.nc then sum / (d.nc : α) else 0

/-- The residuals at `it` of a problem whose checks have passed. -/
def residuals? (q : DenseQp α) (it : DenseIterate α) : Option (Residuals α) := do
  let products ← mulDot? q.dims.nc it.lam it.t
  pure {
    stationarity := ← q.stationarity? it
    equations := ← q.equations? it
    inequalities := ← q.inequalities? it
    complementarity := ← axpby? (-1) q.m 1 products.1
    mu := meanGap q.dims products.2 }

end DenseQp

namespace DenseWorkspace

variable {α : Type} [Scalar α]

/-- The residuals of `q` at `it`, in place of those held. -/
def update (w : DenseWorkspace α) (q : DenseQp α) (it : DenseIterate α) : Attempt QpError (DenseWorkspace α) := do
  .ofExcept (q.check w.dims it)
  let residuals ← .require (q.residuals? it)
  pure { w with residuals }

end DenseWorkspace

end HorizonQp
