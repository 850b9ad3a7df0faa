/-
  HorizonQp.Proofs.Staged.Kernel — what the kernels of a stage compute.

  The kernels of `HorizonQp.Residual.Staged` look at the lengths of their operands first.
  Here is what they compute when the operands match (`Stage.residuals`, `residualsFrom`),
  and how long each result is, whatever the arithmetic. The two agree on stages in shape
  (`HorizonQp.Proofs.Staged.Fed`).
-/

import HorizonQp.Residual.Staged
import HorizonQp.Proofs.Linear.Lengths

namespace HorizonQp

open Linear (Matrix axpby gather scatterAdd mul)

/-- The arrays of a stage have the shapes that its counts say. -/
structure Stage.Shaped {α : Type} (s : Stage α) : Prop where
  RSQrq_rows : s.RSQrq.rows = s.nux + 1
  RSQrq_cols : s.RSQrq.cols = s.nux
  DCt_rows : s.DCt.rows = s.nux
  DCt_cols : s.DCt.cols = s.ng
  DCt : s.DCt.WellShaped
  rqz : s.rqz.length = s.nv
  d : s.d.length = s.nc
  m : s.m.length = s.nc
  Z : s.Z.length = 2 * s.ns
  idxb : s.idxb.length = s.nb
  idxs : s.idxs.length = s.ns
  BAbt_rows : ∀ step ∈ s.step, step.BAbt.rows = s.nux + 1
  BAbt_cols : ∀ step ∈ s.step, step.BAbt.cols = step.b.length
  BAbt : ∀ step ∈ s.step, step.BAbt.WellShaped

namespace Stage

variable {α : Type}

/-! ## The parts of a vector of a stage -/

def ux (s : Stage α) (v : List α) : List α := v.take s.nux

def sl (s : Stage α) (v : List α) : List α := run v s.nux s.ns

def su (s : Stage α) (v : List α) : List α := run v (s.nux + s.ns) s.ns

/-- The lower sides of the bounds and general constraints. -/
def lower (s : Stage α) (x : List α) : List α := x.take s.rows

/-- The upper sides of the bounds and general constraints. -/
def upper (s : Stage α) (x : List α) : List α := run x s.rows s.rows

def bounds (s : Stage α) (side : List α) : List α := side.take s.nb

def general (s : Stage α) (side : List α) : List α := side.drop s.nb

def ls (s : Stage α) (x : List α) : List α := run x (2 * s.rows) s.ns

def us (s : Stage α) (x : List α) : List α := run x (2 * s.rows + s.ns) s.ns

/-- The part of an iterate that belongs to the first stage. -/
def first (s : Stage α) (it : Iterate α) : Iterate α :=
  ⟨it.ux.take s.nv, it.pi.take s.ne, it.lam.take s.nc, it.t.take s.nc⟩

/-! ### Their lengths -/

section Lengths

theorem length_run {x : List α} {first len : Nat} (h : first + len ≤ x.length) : (run x first len).length = len := by
  rw [run, List.length_take, List.length_drop]
  omega

/-- A run that ends where the vector ends. -/
theorem run_to_end {x : List α} {k n : Nat} (h : x.length = k + n) : run x k n = x.drop k :=
  List.take_of_length_le (by rw [List.length_drop, h]; omega)

variable {s : Stage α}

theorem length_ux {v : List α} (hv : v.length = s.nv) : (s.ux v).length = s.nux := by
  rw [ux, List.length_take, hv, nv]
  omega

theorem length_sl {v : List α} (hv : v.length = s.nv) : (s.sl v).length = s.ns := length_run (by rw [hv, nv]; omega)

theorem length_su {v : List α} (hv : v.length = s.nv) : (s.su v).length = s.ns := length_run (by rw [hv, nv]; omega)

theorem length_lower {x : List α} (hx : x.length = s.nc) : (s.lower x).length = s.rows := by
  rw [lower, List.length_take, hx, nc]
  omega

theorem length_upper {x : List α} (hx : x.length = s.nc) : (s.upper x).length = s.rows :=
  length_run (by rw [hx, nc]; omega)

theorem length_bounds {x : List α} (hx : x.length = s.rows) : (s.bounds x).length = s.nb := by
  rw [bounds, List.length_take, hx, rows]
  omega

theorem length_general {x : List α} (hx : x.length = s.rows) : (s.general x).length = s.ng := by
  rw [general, List.length_drop, hx, rows]
  omega

theorem length_ls {x : List α} (hx : x.length = s.nc) : (s.ls x).length = s.ns := length_run (by rw [hx, nc]; omega)

theorem length_us {x : List α} (hx : x.length = s.nc) : (s.us x).length = s.ns := length_run (by rw [hx, nc]; omega)

theorem length_shift (move : α → α → α) (slack side : List α) : (s.shift move slack side).length = side.length :=
  Linear.length_foldl _ _ _ fun _ _ _ h => by rw [List.length_modify, h]

end Lengths

/-! ## Residuals of a stage -/

variable [Scalar α]

/-- Adds the part of the step that leaves the stage. -/
def leave (s : Stage α) (pi r : List α) : List α :=
  match s.step with
  | some step => step.BAbt.product 1 pi 1 r
  | none => r

/-- Takes away the part of the step that enters the stage. -/
def enter (s : Stage α) (entering : Option (List α)) (r : List α) : List α :=
  match entering with
  | some prev => r.take s.nu ++ axpby (-1) prev 1 (r.drop s.nu)
  | none => r

/-- The differences of the multipliers of the two sides of the bounds. -/
def boundsNet (s : Stage α) (lam : List α) : List α :=
  axpby 1 (s.bounds (s.lower lam)) (-1) (s.bounds (s.upper lam))

/-- The differences of the multipliers of the two sides of the general constraints. -/
def generalNet (s : Stage α) (lam : List α) : List α :=
  axpby 1 (s.general (s.lower lam)) (-1) (s.general (s.upper lam))

/-- The slope of the costs in the inputs and states. -/
def costs (s : Stage α) (v : List α) : List α := s.RSQrq.symmetricProduct .lower 1 (s.ux v) 1 (s.rqz.take s.nux)

/-- Stationarity in the inputs and states. -/
def stationarity (s : Stage α) (v pi : List α) (entering : Option (List α)) (lam : List α) : List α :=
  s.DCt.product 1 (s.generalNet lam) 1 (scatterAdd 1 (s.boundsNet lam) s.idxb (s.enter entering (s.leave pi (s.costs v))))

/-- Stationarity in slacks `slack` with weights `Z`, linear costs `z`, and multipliers
    `side` of the rows and `own` of the slacks themselves. -/
def slackStationarity (s : Stage α) (side own z Z slack : List α) : List α :=
  let r := axpby 1 z 1 (axpby 1 own 1 (gather 1 side s.idxs))
  List.zipWith (fun r (Zj, xj) => r + Zj * xj) r (Z.zip slack)

def lowerSlackStationarity (s : Stage α) (v lam : List α) : List α :=
  s.slackStationarity (s.lower lam) (s.ls lam) (run s.rqz s.nux s.ns) (s.Z.take s.ns) (s.sl v)

def upperSlackStationarity (s : Stage α) (v lam : List α) : List α :=
  s.slackStationarity (s.upper lam) (s.us lam) (s.rqz.drop (s.nux + s.ns)) (s.Z.drop s.ns) (s.su v)

/-- The equations of a step to a stage whose variables start `rest`. -/
def equations (s : Stage α) (step : Step α) (v rest : List α) : List α :=
  let next := run rest step.nu step.b.length
  axpby 1 next 1 (step.BAbt.transposedProduct (-1) (s.ux v) (-1) step.b)

/-- The negated values of the bounds and general constraints. -/
def negatedValues (s : Stage α) (v : List α) : List α :=
  gather (-1) (s.ux v) s.idxb ++ s.DCt.transposedProduct (-1) (s.ux v) 0 (List.replicate s.ng 0)

def lowerRows (s : Stage α) (v t : List α) : List α :=
  axpby 1 (s.lower t) 1 (axpby 1 (s.lower s.d) 1 (s.shift (· - ·) (s.sl v) (s.negatedValues v)))

def upperRows (s : Stage α) (v t : List α) : List α :=
  axpby (-1) (s.upper t) 1 (axpby (-1) (s.upper s.d) 1 (s.shift (· + ·) (s.su v) (s.negatedValues v)))

def inequalities (s : Stage α) (v t : List α) : List α :=
  s.lowerRows v t ++ s.upperRows v t ++
    axpby 1 (s.ls t) 1 (axpby (-1) (s.sl v) 1 (s.ls s.d)) ++
    axpby 1 (s.us t) 1 (axpby (-1) (s.su v) 1 (s.us s.d))

/-- The residuals of a stage at its part `it` of an iterate, with the multipliers `entering`
    of the step into it and the variables `after` behind it. -/
def residuals (s : Stage α) (it : Iterate α) (entering : Option (List α)) (after : List α) (mu : α) : Residuals α where
  stationarity :=
    s.stationarity it.ux it.pi entering it.lam ++ s.lowerSlackStationarity it.ux it.lam ++ s.upperSlackStationarity it.ux it.lam
  equations :=
    match s.step with
    | some step => s.equations step it.ux after
    | none => []
  inequalities := s.inequalities it.ux it.t
  complementarity := axpby (-1) s.m 1 (mul it.lam it.t)
  mu

/-! ### Their lengths -/

section Lengths

variable {s : Stage α}

theorem length_boundsNet {lam : List α} (hlam : lam.length = s.nc) : (s.boundsNet lam).length = s.nb := by
  have hl := length_bounds (length_lower hlam)
  have hu := length_bounds (length_upper hlam)
  rw [boundsNet, Linear.length_axpby (hl.trans hu.symm), hu]

theorem length_generalNet {lam : List α} (hlam : lam.length = s.nc) : (s.generalNet lam).length = s.ng := by
  have hl := length_general (length_lower hlam)
  have hu := length_general (length_upper hlam)
  rw [generalNet, Linear.length_axpby (hl.trans hu.symm), hu]

variable (hs : s.Shaped)
include hs

theorem length_costs (v : List α) : (s.costs v).length = s.nux := by
  rw [costs, Matrix.length_symmetricProduct, List.length_take, hs.rqz, nv]
  omega

theorem length_leave (pi : List α) {r : List α} (hr : r.length = s.nux) : (s.leave pi r).length = s.nux := by
  unfold leave
  split
  · rename_i step hst
    rw [Matrix.length_product (hs.BAbt step hst).filled _ _ _ (by rw [hs.BAbt_rows step hst]; omega), hr]
  · exact hr

omit hs in
theorem length_enter {entering : Option (List α)} (he : ∀ prev ∈ entering, prev.length = s.nx) {r : List α}
    (hr : r.length = s.nux) : (s.enter entering r).length = s.nux := by
  unfold enter
  split
  · rename_i prev
    have hx : (r.drop s.nu).length = s.nx := by rw [List.length_drop, hr, nux]; omega
    rw [List.length_append, List.length_take, Linear.length_axpby ((he prev rfl).trans hx.symm), hx, hr, nux]
    omega
  · exact hr

theorem length_stationarity (v pi lam : List α) {entering : Option (List α)}
    (he : ∀ prev ∈ entering, prev.length = s.nx) : (s.stationarity v pi entering lam).length = s.nux := by
  have hr := length_enter he (length_leave hs pi (length_costs hs v))
  rw [stationarity, Matrix.length_product hs.DCt.filled _ _ _ (Nat.le_of_eq (by rw [Linear.length_scatterAdd, hr, hs.DCt_rows])),
    Linear.length_scatterAdd, hr]

theorem length_slackStationarity (side : List α) {own z Z slack : List α} (hown : own.length = s.ns)
    (hz : z.length = s.ns) (hZ : Z.length = s.ns) (hslack : slack.length = s.ns) :
    (s.slackStationarity side own z Z slack).length = s.ns := by
  have hg : (gather 1 side s.idxs).length = s.ns := (Linear.length_gather ..).trans hs.idxs
  have hin := (Linear.length_axpby (a := (1 : α)) (b := 1) (hown.trans hg.symm)).trans hg
  have hr := (Linear.length_axpby (a := (1 : α)) (b := 1) (hz.trans hin.symm)).trans hin
  rw [slackStationarity, List.length_zipWith, hr, List.length_zip, hZ, hslack, Nat.min_self, Nat.min_self]

theorem length_lowerSlackStationarity {v lam : List α} (hv : v.length = s.nv) (hlam : lam.length = s.nc) :
    (s.lowerSlackStationarity v lam).length = s.ns :=
  length_slackStationarity hs _ (length_ls hlam) (length_run (by rw [hs.rqz, nv]; omega))
    (List.length_take_of_le (by rw [hs.Z]; omega)) (length_sl hv)

theorem length_upperSlackStationarity {v lam : List α} (hv : v.length = s.nv) (hlam : lam.length = s.nc) :
    (s.upperSlackStationarity v lam).length = s.ns :=
  length_slackStationarity hs _ (length_us hlam) (by rw [List.length_drop, hs.rqz, nv]; omega)
    (by rw [List.length_drop, hs.Z]; omega) (length_su hv)

theorem length_equations {step : Step α} (hst : s.step = some step) (v : List α) {rest : List α}
    (hrest : step.nu + step.b.length ≤ rest.length) : (s.equations step v rest).length = step.b.length := by
  have ht : (step.BAbt.transposedProduct (-1) (s.ux v) (-1) step.b).length = step.b.length :=
    Matrix.length_transposedProduct _ _ _ (hs.BAbt_cols step hst)
  rw [equations, Linear.length_axpby ((length_run hrest).trans ht.symm), ht]

theorem length_negatedValues (v : List α) : (s.negatedValues v).length = s.rows := by
  rw [negatedValues, List.length_append, Linear.length_gather, hs.idxb,
    Matrix.length_transposedProduct _ _ _ (by rw [List.length_replicate, hs.DCt_cols]), List.length_replicate, rows]

theorem length_lowerRows (v : List α) {t : List α} (ht : t.length = s.nc) : (s.lowerRows v t).length = s.rows := by
  have hn : (s.shift (· - ·) (s.sl v) (s.negatedValues v)).length = s.rows :=
    (length_shift _ _ _).trans (length_negatedValues hs v)
  have hin := (Linear.length_axpby (a := (1 : α)) (b := 1) ((length_lower hs.d).trans hn.symm)).trans hn
  exact (Linear.length_axpby ((length_lower ht).trans hin.symm)).trans hin

theorem length_upperRows (v : List α) {t : List α} (ht : t.length = s.nc) : (s.upperRows v t).length = s.rows := by
  have hn : (s.shift (· + ·) (s.su v) (s.negatedValues v)).length = s.rows :=
    (length_shift _ _ _).trans (length_negatedValues hs v)
  have hin := (Linear.length_axpby (a := (-1 : α)) (b := 1) ((length_upper hs.d).trans hn.symm)).trans hn
  exact (Linear.length_axpby ((length_upper ht).trans hin.symm)).trans hin

omit hs in
theorem length_ownRows {own slack bound : List α} (hown : own.length = s.ns) (hslack : slack.length = s.ns)
    (hbound : bound.length = s.ns) : (axpby 1 own 1 (axpby (-1) slack 1 bound)).length = s.ns := by
  have hin := (Linear.length_axpby (a := (-1 : α)) (b := 1) (hslack.trans hbound.symm)).trans hbound
  exact (Linear.length_axpby (hown.trans hin.symm)).trans hin

theorem length_inequalities {v t : List α} (hv : v.length = s.nv) (ht : t.length = s.nc) :
    (s.inequalities v t).length = s.nc := by
  simp only [inequalities, List.length_append, length_lowerRows hs v ht, length_upperRows hs v ht,
    length_ownRows (length_ls ht) (length_sl hv) (length_ls hs.d),
    length_ownRows (length_us ht) (length_su hv) (length_us hs.d), nc]
  omega

end Lengths

end Stage

/-! ## Residuals of the stages -/

section Walk

variable {α : Type} [Scalar α]

/-- The residuals of the stages at the fronts of the vectors. `entering` are the
    multipliers of the step into the first of them, and `mu` is `gap` plus the products of
    multipliers and slacks. -/
def residualsFrom : List (Stage α) → Iterate α → Option (List α) → α → Residuals α
  | [], _, _, gap => ⟨[], [], [], [], gap⟩
  | s :: stages, it, entering, gap =>
    (s.residuals (s.first it) entering (it.ux.drop s.nv) gap).before
      (residualsFrom stages (s.rest it) (some (it.pi.take s.ne))
        (gap + Linear.sum (mul (it.lam.take s.nc) (it.t.take s.nc))))

/-- The residuals of a problem given by its stages. -/
def stageResiduals (stages : List (Stage α)) (it : Iterate α) : Residuals α :=
  let r := residualsFrom stages it none 0
  let nct := total (stages.map Stage.nc)
  { r with mu := if 0 < nct then r.mu / (nct : α) else 0 }

end Walk

end HorizonQp
