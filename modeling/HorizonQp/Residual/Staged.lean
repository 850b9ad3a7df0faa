/-
  HorizonQp.Residual.Staged — the residuals of a multi-stage problem.

  At stage `i` let `ux = [u; x]`, `c = [ux[idxb]; DCt'ux]`, `RSQ` the symmetric matrix
  whose lower triangle is that of the leading block of `RSQrq`, and `P` the matrix that
  puts entry `j` at coordinate `idxb[j]`. A slack `j` softens row `k = idxs[j]`: it raises
  the lower value of the row by `sl[j]` and lowers the upper value by `su[j]`.

    stationarity, ux  RSQ ux + [r; q] + [B'; A'] pi_i - [0; pi_{i-1}]
                        + P (lam_lb - lam_ub) + DCt (lam_lg - lam_ug)
    stationarity, sl  Zl sl + zl + lam_l[idxs] + lam_ls
    stationarity, su  Zu su + zu + lam_u[idxs] + lam_us
    equations         x_{i+1} - B u - A x - b
    inequalities      [-lower + l + t_l;  -upper + u - t_u;  -sl + ls + t_ls;  -su + us + t_us]
    complementarity   lam .* t - m
    mu                the mean of lam .* t over all rows, or zero without rows

  An iterate is one long vector of each kind, the stages one behind the other; a stage
  takes its own part off the front (`residualsFrom?`). The step to a stage passes its
  multipliers on, as the `pi_{i-1}` of that stage.

  The checks of `update` come first and compare the iterate and the workspace with the
  totals of the dimensions. What a stage then cuts out of its vectors has to be there, and
  the operands of every kernel have to match, or there is no answer.
-/

import HorizonQp.Qp.Basic
import HorizonQp.Linear.Product
import HorizonQp.Residual.Norms

namespace HorizonQp

open Linear (Matrix axpby? gather? scatterAdd? mulDot?)
open Word (wrap)

/-- A point `ux = [u; x; sl; su]` of every stage with multipliers `pi` of the dynamics, and
    multipliers `lam` and slacks `t` of the inequalities, packed like `d`. -/
structure Iterate (α : Type) where
  ux : List α
  pi : List α
  lam : List α
  t : List α
  deriving DecidableEq, Repr

/-- The step from a stage to the next, which has `nu` inputs. -/
structure Step (α : Type) where
  nu : Nat
  BAbt : Matrix α
  b : List α
  deriving DecidableEq, Repr

/-- The data of a stage that its residuals depend on. -/
structure Stage (α : Type) where
  nu : Nat
  nx : Nat
  nb : Nat
  ng : Nat
  ns : Nat
  RSQrq : Matrix α
  DCt : Matrix α
  rqz : List α
  d : List α
  m : List α
  Z : List α
  idxb : List Nat
  idxs : List Nat
  step : Option (Step α)
  deriving DecidableEq, Repr

namespace Stage

variable {α : Type}

def nux (s : Stage α) : Nat := s.nu + s.nx

def nv (s : Stage α) : Nat := s.nux + 2 * s.ns

/-- Bounds and general constraints. -/
def rows (s : Stage α) : Nat := s.nb + s.ng

def nc (s : Stage α) : Nat := 2 * (s.rows + s.ns)

/-- Equations of the step to the next stage. -/
def ne (s : Stage α) : Nat :=
  match s.step with
  | some step => step.b.length
  | none => 0

/-- The run of `len` entries from `first`. -/
def run (x : List α) (first len : Nat) : List α := (x.drop first).take len

/-- The same run, if the entries are all there. -/
def run? (x : List α) (first len : Nat) : Option (List α) :=
  if first + len ≤ x.length then some (run x first len) else none

/-! ## The parts of a vector of a stage -/

/-- The parts of a vector over the variables of a stage. -/
structure Variables (α : Type) where
  ux : List α
  sl : List α
  su : List α

/-- The parts of a vector over the rows of a stage: the lower and the upper sides of the
    bounds and general constraints, and those of the slacks. -/
structure Rows (α : Type) where
  lower : List α
  upper : List α
  ls : List α
  us : List α

def variables? (s : Stage α) (v : List α) : Option (Variables α) := do
  pure ⟨← run? v 0 s.nux, ← run? v s.nux s.ns, ← run? v (s.nux + s.ns) s.ns⟩

def rows? (s : Stage α) (x : List α) : Option (Rows α) := do
  pure ⟨← run? x 0 s.rows, ← run? x s.rows s.rows, ← run? x (2 * s.rows) s.ns, ← run? x (2 * s.rows + s.ns) s.ns⟩

/-- The bounds of a side. -/
def bounds? (s : Stage α) (side : List α) : Option (List α) := run? side 0 s.nb

/-- The general constraints of a side. -/
def general? (s : Stage α) (side : List α) : Option (List α) := run? side s.nb s.ng

/-- The part of an iterate that belongs to the first stage. -/
def first? (s : Stage α) (it : Iterate α) : Option (Iterate α) := do
  pure ⟨← run? it.ux 0 s.nv, ← run? it.pi 0 s.ne, ← run? it.lam 0 s.nc, ← run? it.t 0 s.nc⟩

/-- The iterate of the stages behind the first. -/
def rest (s : Stage α) (it : Iterate α) : Iterate α :=
  ⟨it.ux.drop s.nv, it.pi.drop s.ne, it.lam.drop s.nc, it.t.drop s.nc⟩

/-! ## Residuals of a stage -/

variable [Scalar α]

/-- Adds the part of the step that leaves the stage, with multipliers `pi`. -/
def leave? (s : Stage α) (pi r : List α) : Option (List α) :=
  match s.step with
  | some step => step.BAbt.leadingProduct? 1 pi 1 r
  | none => some r

/-- Takes away the part of the step that enters the stage, with multipliers `entering`. -/
def enter? (s : Stage α) (entering : Option (List α)) (r : List α) : Option (List α) :=
  match entering with
  | some prev => do pure ((← run? r 0 s.nu) ++ (← axpby? (-1) prev 1 (← run? r s.nu s.nx)))
  | none => some r

/-- Stationarity in the inputs and states `ux`, which have the linear costs `rq`. -/
def stationarity? (s : Stage α) (ux rq pi : List α) (entering : Option (List α)) (lam : Rows α) : Option (List α) := do
  let r ← s.RSQrq.symmetricProduct? .lower 1 ux 1 rq
  let r ← s.enter? entering (← s.leave? pi r)
  let r ← scatterAdd? 1 (← axpby? 1 (← s.bounds? lam.lower) (-1) (← s.bounds? lam.upper)) s.idxb r
  s.DCt.product? 1 (← axpby? 1 (← s.general? lam.lower) (-1) (← s.general? lam.upper)) 1 r

/-- Stationarity in slacks `slack` with weights `Z`, linear costs `z`, and multipliers
    `side` of the rows and `own` of the slacks themselves. -/
def slackStationarity? (s : Stage α) (side own z Z slack : List α) : Option (List α) := do
  let r ← axpby? 1 z 1 (← axpby? 1 own 1 (← gather? s.ns 1 side s.idxs))
  pure (List.zipWith (fun r (Zj, xj) => r + Zj * xj) r (Z.zip slack))

/-- The equations of the step that leaves the stage, to a stage whose variables start `after`. -/
def equations? (s : Stage α) (ux after : List α) : Option (List α) :=
  match s.step with
  | some step => do
    axpby? 1 (← run? after step.nu step.b.length) 1 (← step.BAbt.leadingTransposedProduct? (-1) ux (-1) step.b)
  | none => some []

/-- The negated values of the bounds and general constraints. -/
def negatedValues? (s : Stage α) (ux : List α) : Option (List α) := do
  pure ((← gather? s.nb (-1) ux s.idxb) ++ (← s.DCt.transposedProduct? (-1) ux 0 (List.replicate s.ng 0)))

/-- Entry `j` of `slack` moves row `idxs[j]`, by `move`, for each `j` in turn. -/
def shift (s : Stage α) (move : α → α → α) (slack side : List α) : List α :=
  (s.idxs.zip slack).foldl (fun side (k, x) => side.modify k (move · x)) side

def shift? (s : Stage α) (move : α → α → α) (slack side : List α) : Option (List α) :=
  if s.idxs.length ≤ slack.length ∧ s.idxs.all (· < side.length) then some (s.shift move slack side) else none

/-- The rows of a side of the bounds and general constraints, whose parts of `d` and `t` have the factor `sign`. -/
def sideRows? (s : Stage α) (sign : α) (move : α → α → α) (slack negated d t : List α) : Option (List α) := do
  axpby? sign t 1 (← axpby? sign d 1 (← s.shift? move slack negated))

/-- The rows of the slacks themselves. -/
def ownRows? (slack d t : List α) : Option (List α) := do axpby? 1 t 1 (← axpby? (-1) slack 1 d)

def inequalities? (s : Stage α) (v : Variables α) (d t : Rows α) : Option (List α) := do
  let negated ← s.negatedValues? v.ux
  let low ← s.sideRows? 1 (· - ·) v.sl negated d.lower t.lower
  let up ← s.sideRows? (-1) (· + ·) v.su negated d.upper t.upper
  pure (low ++ up ++ (← ownRows? v.sl d.ls t.ls) ++ (← ownRows? v.su d.us t.us))

/-- The residuals of a stage at its part `it` of an iterate. `entering` are the multipliers
    of the step into it and `after` the variables behind it; `mu` is `gap` plus the products
    of its multipliers and slacks. -/
def residuals? (s : Stage α) (it : Iterate α) (entering : Option (List α)) (after : List α) (gap : α) :
    Option (Residuals α) := do
  let v ← s.variables? it.ux
  let cost ← s.variables? s.rqz
  let lam ← s.rows? it.lam
  let stationarity ← s.stationarity? v.ux cost.ux it.pi entering lam
  let low ← s.slackStationarity? lam.lower lam.ls cost.sl (← run? s.Z 0 s.ns) v.sl
  let up ← s.slackStationarity? lam.upper lam.us cost.su (← run? s.Z s.ns s.ns) v.su
  let (products, sum) ← mulDot? s.nc it.lam it.t
  pure {
    stationarity := stationarity ++ low ++ up
    equations := ← s.equations? v.ux after
    inequalities := ← s.inequalities? v (← s.rows? s.d) (← s.rows? it.t)
    complementarity := ← axpby? (-1) s.m 1 products
    mu := gap + sum }

end Stage

/-! ## Residuals of the stages -/

variable {α : Type}

/-- The residuals of a stage in front of those of the stages behind it. -/
def Residuals.before (front back : Residuals α) : Residuals α where
  stationarity := front.stationarity ++ back.stationarity
  equations := front.equations ++ back.equations
  inequalities := front.inequalities ++ back.inequalities
  complementarity := front.complementarity ++ back.complementarity
  mu := back.mu

section Walk

variable [Scalar α]

/-- The residuals of the stages at the fronts of the vectors. `entering` are the
    multipliers of the step into the first of them, and `mu` is `gap` plus the products of
    multipliers and slacks. -/
def residualsFrom? : List (Stage α) → Iterate α → Option (List α) → α → Option (Residuals α)
  | [], _, _, gap => some ⟨[], [], [], [], gap⟩
  | s :: stages, it, entering, gap => do
    let part ← s.first? it
    let front ← s.residuals? part entering (it.ux.drop s.nv) gap
    pure (front.before (← residualsFrom? stages (s.rest it) (some part.pi) front.mu))

/-- The residuals of a problem given by its stages. -/
def stageResiduals? (stages : List (Stage α)) (it : Iterate α) : Option (Residuals α) := do
  let r ← residualsFrom? stages it none 0
  let nct := total (stages.map Stage.nc)
  pure { r with mu := if 0 < nct then r.mu / (nct : α) else 0 }

end Walk

namespace Qp

variable [Stored α]

/-- The step that leaves a stage, if there is a next one. -/
def step? (q : Qp α) (i : Nat) : Option (Option (Step α)) :=
  if i < q.dims.N then do
    pure (some ⟨← q.dims.nu[i + 1]?, ← q.matrix? .BAbt i, ← q.vector? .b i⟩)
  else some none

/-- The data of a stage, read from the block. -/
def stage? (q : Qp α) (i : Nat) : Option (Stage α) := do
  pure {
    nu := ← q.dims.nu[i]?
    nx := ← q.dims.nx[i]?
    nb := ← q.dims.nb[i]?
    ng := ← q.dims.ng[i]?
    ns := ← q.dims.ns[i]?
    RSQrq := ← q.matrix? .RSQrq i
    DCt := ← q.matrix? .DCt i
    rqz := ← q.vector? .rqz i
    d := ← q.vector? .d i
    m := ← q.vector? .m i
    Z := ← q.vector? .Z i
    idxb := ← q.indices? .idxb i
    idxs := ← q.indices? .idxs i
    step := ← q.step? i }

/-- The stages of a problem, read from the block. -/
def stages? (q : Qp α) : Option (List (Stage α)) := overStages q.stage? 0 q.dims.stages

end Qp

/-! ## Workspaces -/

/-- Room for the residuals of a problem of dimensions `dims`. -/
structure Workspace (α : Type) where
  dims : Dims
  residuals : Residuals α
  deriving DecidableEq, Repr

namespace Workspace

/-- Whether the bounds of any one entry, a number each, fit one allocation, and its general
    constraints another. Entries past the last stage are no exception. -/
def fitsRows (α : Type) [Stored α] (d : Dims) : Bool :=
  (d.nb ++ d.ng).all (Word.allocates (Stored.width α))

/-- A workspace of zeros, which also needs room for the rows of the largest entry. -/
def new? [Zero α] [Stored α] (d : Dims) : Option (Workspace α) :=
  if fitsRows α d then do
    pure ⟨d, ← Residuals.zeros? (← d.nvt?) (← d.net?) (← d.nct?)⟩
  else none

/-- The counts `f` of the two dimension records agree. -/
def checkCount (f : Dims → Option Nat) (work d : Dims) : Attempt QpError Unit := do
  let expected ← .require (f work)
  let found ← .require (f d)
  .ofExcept (checkLength expected found)

/-- The workspace has the totals of `d` and its bounds and general constraints at every
    stage; how the bounds split into inputs and states does not matter. -/
def checkDims (work d : Dims) : Attempt QpError Unit := do
  .ofExcept (checkLength work.N d.N)
  checkCount Dims.nvt? work d
  checkCount Dims.net? work d
  checkCount Dims.nct? work d
  let _ ← overStages (fun i => do
    checkCount (·.nb[i]?) work d
    checkCount (·.ng[i]?) work d) 0 d.stages

def checkTotal (f : Dims → Option Nat) (d : Dims) (x : List α) : Attempt QpError Unit := do
  let expected ← .require (f d)
  .ofExcept (checkLength expected x.length)

/-- The index arrays of stage `i` point inside their targets. -/
def checkStageIndices [Stored α] (q : Qp α) (i : Nat) : Attempt QpError Unit := do
  let idxb ← .require (q.indices? .idxb i)
  let nux ← .require (q.dims.nux? i)
  .ofExcept (checkIndices idxb nux)
  let idxs ← .require (q.indices? .idxs i)
  let nb ← .require q.dims.nb[i]?
  let ng ← .require q.dims.ng[i]?
  .ofExcept (checkIndices idxs (wrap (nb + ng)))

def check [Stored α] (work : Dims) (q : Qp α) (it : Iterate α) : Attempt QpError Unit := do
  let d := q.dims
  checkDims work d
  checkTotal Dims.nvt? d it.ux
  checkTotal Dims.net? d it.pi
  checkTotal Dims.nct? d it.lam
  checkTotal Dims.nct? d it.t
  let _ ← overStages (checkStageIndices q) 0 d.stages

/-- The residuals of `q` at `it`, in place of those held. -/
def update [Stored α] [Scalar α] (w : Workspace α) (q : Qp α) (it : Iterate α) :
    Attempt QpError (Workspace α) := do
  check w.dims q it
  let stages ← .require q.stages?
  pure { w with residuals := ← .require (stageResiduals? stages it) }

end Workspace

/-- The residuals of `q` at `it`, in a new workspace. -/
def Qp.residualsAt [Stored α] [Scalar α] (q : Qp α) (it : Iterate α) : Attempt QpError (Workspace α) := do
  let w ← .require (Workspace.new? q.dims)
  w.update q it

end HorizonQp
