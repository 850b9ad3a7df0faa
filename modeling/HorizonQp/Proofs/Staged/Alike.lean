/-
  HorizonQp.Proofs.Staged.Alike — two problems that differ in what no residual refers to.

  The residuals of a stage refer to its counts, to the lower triangle of the leading block
  of `RSQrq`, to the leading rows of `BAbt`, and to the other arrays as they are. `Alike`
  says that two stages agree in these, `b`, `d` and `m` left open. Their kernels then do the
  same operations on the same numbers, whatever the arithmetic, so their stationarity and
  their products of multipliers and slacks are the same to the bit, and each of the other
  residuals is as soon as the one vector agrees that it alone refers to (`Alike.residuals`).

  So are those of all stages along the walk (`residualsFrom_alike`).
-/

import HorizonQp.Proofs.Linear.Reads
import HorizonQp.Proofs.Staged.Parts

namespace HorizonQp

open Linear (Matrix axpby mul)

variable {α : Type}

/-- Steps that agree in the leading `n` rows of their dynamics. -/
structure Step.Alike [Zero α] (n : Nat) (step step' : Step α) : Prop where
  nu : step'.nu = step.nu
  length : step'.b.length = step.b.length
  dynamics : ∀ i < n, ∀ j < step.b.length, step'.BAbt.entry i j = step.BAbt.entry i j

/-- Stages that agree in what their residuals refer to, but for `b`, `d` and `m`. -/
structure Stage.Alike [Zero α] (s s' : Stage α) : Prop where
  nu : s'.nu = s.nu
  nx : s'.nx = s.nx
  nb : s'.nb = s.nb
  ng : s'.ng = s.ng
  ns : s'.ns = s.ns
  hessian : ∀ i < s.nux, ∀ j ≤ i, s'.RSQrq.entry i j = s.RSQrq.entry i j
  DCt : s'.DCt = s.DCt
  rqz : s'.rqz = s.rqz
  Z : s'.Z = s.Z
  idxb : s'.idxb = s.idxb
  idxs : s'.idxs = s.idxs
  step : Option.Rel (Step.Alike s.nux) s.step s'.step

/-- The right-hand side of the step that leaves the stage. -/
def Stage.rhs (s : Stage α) : Option (List α) := s.step.map Step.b

/-- Residuals that agree in stationarity and mean gap, and in each other part under a condition. -/
structure Residuals.Agree (equations inequalities complementarity : Prop) (r r' : Residuals α) : Prop where
  stationarity : r'.stationarity = r.stationarity
  mu : r'.mu = r.mu
  equations : equations → r'.equations = r.equations
  inequalities : inequalities → r'.inequalities = r.inequalities
  complementarity : complementarity → r'.complementarity = r.complementarity

namespace Residuals.Agree

variable {eqs ineqs comps : Prop} {front front' back back' : Residuals α}

theorem before {eqs' ineqs' comps' : Prop} (hf : Agree eqs ineqs comps front front')
    (hb : Agree eqs' ineqs' comps' back back') :
    Agree (eqs ∧ eqs') (ineqs ∧ ineqs') (comps ∧ comps') (front.before back) (front'.before back') where
  stationarity := by simp only [Residuals.before, hf.stationarity, hb.stationarity]
  mu := hb.mu
  equations h := by simp only [Residuals.before, hf.equations h.1, hb.equations h.2]
  inequalities h := by simp only [Residuals.before, hf.inequalities h.1, hb.inequalities h.2]
  complementarity h := by simp only [Residuals.before, hf.complementarity h.1, hb.complementarity h.2]

theorem mono {eqs' ineqs' comps' : Prop} (h : Agree eqs ineqs comps front front') (he : eqs' → eqs)
    (hi : ineqs' → ineqs) (hc : comps' → comps) : Agree eqs' ineqs' comps' front front' :=
  ⟨h.stationarity, h.mu, fun p => h.equations (he p), fun p => h.inequalities (hi p), fun p => h.complementarity (hc p)⟩

end Residuals.Agree

namespace Stage.Alike

variable [Scalar α] {s s' : Stage α} (a : s.Alike s')
include a

/-! ## Counts and parts -/

theorem nux : s'.nux = s.nux := by simp only [Stage.nux, a.nu, a.nx]

theorem nv : s'.nv = s.nv := by simp only [Stage.nv, a.nux, a.ns]

theorem rows : s'.rows = s.rows := by simp only [Stage.rows, a.nb, a.ng]

theorem nc : s'.nc = s.nc := by simp only [Stage.nc, a.rows, a.ns]

/-- No step leaves either stage, or two that agree do. -/
theorem steps : (s.step = none ∧ s'.step = none) ∨
    ∃ step step', s.step = some step ∧ s'.step = some step' ∧ step.Alike s.nux step' := by
  have h := a.step
  generalize s.step = o, s'.step = o' at h
  cases h with
  | none => exact Or.inl ⟨rfl, rfl⟩
  | some h => exact Or.inr ⟨_, _, rfl, rfl, h⟩

theorem ne : s'.ne = s.ne := by
  obtain ⟨hst, hst'⟩ | ⟨step, step', hst, hst', h⟩ := a.steps
  · simp only [Stage.ne, hst, hst']
  · simp only [Stage.ne, hst, hst', h.length]

theorem first (it : Iterate α) : s'.first it = s.first it := by simp only [Stage.first, a.nv, a.ne, a.nc]

theorem rest (it : Iterate α) : s'.rest it = s.rest it := by simp only [Stage.rest, a.nv, a.ne, a.nc]

/-! ## Kernels -/

theorem enter (entering : Option (List α)) (r : List α) : s'.enter entering r = s.enter entering r := by
  unfold Stage.enter
  cases entering with
  | none => rfl
  | some prev => simp only [a.nu]

theorem boundsNet (lam : List α) : s'.boundsNet lam = s.boundsNet lam := by
  simp only [Stage.boundsNet, Stage.bounds, Stage.lower, Stage.upper, a.rows, a.nb]

theorem generalNet (lam : List α) : s'.generalNet lam = s.generalNet lam := by
  simp only [Stage.generalNet, Stage.general, Stage.lower, Stage.upper, a.rows, a.nb]

theorem lowerSlackStationarity (v lam : List α) : s'.lowerSlackStationarity v lam = s.lowerSlackStationarity v lam := by
  simp only [Stage.lowerSlackStationarity, Stage.slackStationarity, Stage.lower, Stage.ls, Stage.sl, a.rows, a.ns,
    a.nux, a.rqz, a.Z, a.idxs]

theorem upperSlackStationarity (v lam : List α) : s'.upperSlackStationarity v lam = s.upperSlackStationarity v lam := by
  simp only [Stage.upperSlackStationarity, Stage.slackStationarity, Stage.upper, Stage.us, Stage.su, a.rows, a.ns,
    a.nux, a.rqz, a.Z, a.idxs]

/-- The rows differ by what is written into them, which is `d`. -/
theorem inequalities (hd : s'.d = s.d) (v t : List α) : s'.inequalities v t = s.inequalities v t := by
  simp only [Stage.inequalities, Stage.lowerRows, Stage.upperRows, Stage.negatedValues, Stage.shift, Stage.lower,
    Stage.upper, Stage.ls, Stage.us, Stage.sl, Stage.su, Stage.ux, a.rows, a.ns, a.ng, a.nux, a.DCt, a.idxb, a.idxs, hd]

section Products

variable (hs : s.Shaped) (hs' : s'.Shaped)
include hs hs'

theorem costs {v : List α} (hv : v.length = s.nv) : s'.costs v = s.costs v := by
  have hux := length_ux hv
  have hrq : (s.rqz.take s.nux).length = s.nux := by rw [List.length_take, hs.rqz, Stage.nv]; omega
  have hR := hs.RSQrq_rows
  have hR' := hs'.RSQrq_rows
  have hnux := a.nux
  simp only [Stage.costs, Stage.ux, a.rqz, a.nux]
  exact Matrix.symmetricProduct_congr (hs'.RSQrq_cols.trans hnux) hs.RSQrq_cols (by omega) (by omega)
    (fun i hi j _ hheld => a.hessian i hi j (Matrix.le_of_lower hheld)) 1 hux 1 hrq

/-- The leading rows of the dynamics agree. -/
theorem leading_dynamics {step step' : Step α} (hst : s.step = some step) (hst' : s'.step = some step')
    (h : step.Alike s.nux step') : step'.BAbt.leading s.nux = step.BAbt.leading s.nux := by
  have hc := hs.BAbt_cols step hst
  have hc' := hs'.BAbt_cols step' hst'
  have hr := hs.BAbt_rows step hst
  have hr' := hs'.BAbt_rows step' hst'
  rw [a.nux] at hr'
  apply Matrix.leading_congr (hs'.BAbt step' hst') (hs.BAbt step hst) (by rw [hc', hc, h.length]) (by omega) (by omega)
  intro i hi j hj
  rw [hc', h.length] at hj
  exact h.dynamics i hi j hj

theorem leave (pi : List α) {r : List α} (hr : r.length = s.nux) : s'.leave pi r = s.leave pi r := by
  obtain ⟨hst, hst'⟩ | ⟨step, step', hst, hst', h⟩ := a.steps
  · simp only [Stage.leave, hst, hst']
  · simp only [Stage.leave, hst, hst']
    exact Matrix.product_congr 1 pi 1 (Nat.le_of_eq hr) (a.leading_dynamics hs hs' hst hst' h)

/-- The equations differ by what is written into them, which is `b`. -/
theorem equations {step step' : Step α} (hst : s.step = some step) (hst' : s'.step = some step')
    (h : step.Alike s.nux step') (hb : step'.b = step.b) {v : List α} (hv : v.length = s.nv) (after : List α) :
    s'.equations step' v after = s.equations step v after := by
  have hux := length_ux hv
  have hleading := a.leading_dynamics hs hs' hst hst' h
  simp only [Stage.equations, hb, h.nu, Stage.ux, a.nux]
  rw [Matrix.transposedProduct_congr (-1) (v.take s.nux) (-1) step.b]
  rwa [show (v.take s.nux).length = s.nux from hux]

end Products

/-! ## Residuals -/

variable {p : Iterate α} {entering : Option (List α)} {after : List α} (h : s.Fed p entering after)
  (h' : s'.Fed p entering after)
include h h'

theorem stationarity : s'.stationarity p.ux p.pi entering p.lam = s.stationarity p.ux p.pi entering p.lam := by
  have hcosts := a.costs h.shaped h'.shaped h.ux
  have hleave := a.leave h.shaped h'.shaped p.pi (length_costs h.shaped p.ux)
  simp only [Stage.stationarity, a.DCt, a.generalNet, a.boundsNet, a.idxb, a.enter, hcosts, hleave]

/-- Each residual of a stage agrees as far as the data do that it refers to. -/
theorem residuals (mu : α) :
    Residuals.Agree (s'.rhs = s.rhs) (s'.d = s.d) (s'.m = s.m) (s.residuals p entering after mu)
      (s'.residuals p entering after mu) where
  stationarity := by
    simp only [Stage.residuals, a.stationarity h h', a.lowerSlackStationarity, a.upperSlackStationarity]
  mu := rfl
  equations hb := by
    obtain ⟨hst, hst'⟩ | ⟨step, step', hst, hst', hstep⟩ := a.steps
    · simp only [Stage.residuals, hst, hst']
    · simp only [Stage.rhs, hst, hst', Option.map_some, Option.some.injEq] at hb
      simp only [Stage.residuals, hst, hst', a.equations h.shaped h'.shaped hst hst' hstep hb h.ux]
  inequalities hd := a.inequalities hd p.ux p.t
  complementarity hm := by simp only [Stage.residuals, hm]

end Stage.Alike

/-! ## The residuals of the stages -/

section Walk

variable [Scalar α] {stages stages' : List (Stage α)}

/-- The residuals of all stages agree as far as the data do that they refer to. -/
theorem residualsFrom_alike (ha : List.Forall₂ Stage.Alike stages stages') {it : Iterate α}
    {entering : Option (List α)} (h : Suits stages it) (h' : Suits stages' it) (he : Enters stages entering)
    (he' : Enters stages' entering) (gap : α) :
    Residuals.Agree (stages'.map Stage.rhs = stages.map Stage.rhs) (stages'.map Stage.d = stages.map Stage.d)
      (stages'.map Stage.m = stages.map Stage.m) (residualsFrom stages it entering gap)
      (residualsFrom stages' it entering gap) := by
  induction ha generalizing it entering gap with
  | nil => exact ⟨rfl, rfl, fun _ => rfl, fun _ => rfl, fun _ => rfl⟩
  | @cons s s' stages stages' a ha ih =>
    have hfront := h.first he
    have hfront' := h'.first he'
    have hback' := h'.rest
    have henters' := h'.enters
    rw [a.first, a.nv] at hfront'
    rw [a.rest] at hback'
    rw [a.ne] at henters'
    have hf := a.residuals hfront hfront' gap
    have hb := ih h.rest hback' h.enters henters' (gap + Linear.sum (mul (it.lam.take s.nc) (it.t.take s.nc)))
    simp only [residualsFrom, a.first, a.rest, a.nv, a.ne, a.nc]
    apply (hf.before hb).mono
    · intro hall
      simpa using hall
    · intro hall
      simpa using hall
    · intro hall
      simpa using hall

theorem stageResiduals_alike (ha : List.Forall₂ Stage.Alike stages stages') {it : Iterate α} (h : Suits stages it)
    (h' : Suits stages' it) :
    Residuals.Agree (stages'.map Stage.rhs = stages.map Stage.rhs) (stages'.map Stage.d = stages.map Stage.d)
      (stages'.map Stage.m = stages.map Stage.m) (stageResiduals stages it) (stageResiduals stages' it) := by
  have hwalk := residualsFrom_alike ha h h' (enters_none stages) (enters_none stages') 0
  exact {
    stationarity := hwalk.stationarity
    mu := by simp only [stageResiduals, hwalk.mu, total_map_related ha fun _ _ a => a.nc]
    equations := hwalk.equations
    inequalities := hwalk.inequalities
    complementarity := hwalk.complementarity }

/-- The index arrays of stages that agree point inside together. -/
theorem indices_alike (ha : List.Forall₂ Stage.Alike stages stages') (hidxb : ∀ s ∈ stages, ∀ k ∈ s.idxb, k < s.nux)
    (hidxs : ∀ s ∈ stages, ∀ k ∈ s.idxs, k < s.rows) :
    ∀ s' ∈ stages', (∀ k ∈ s'.idxb, k < s'.nux) ∧ ∀ k ∈ s'.idxs, k < s'.rows := by
  induction ha with
  | nil => exact nofun
  | @cons s s' stages stages' a _ ih =>
    rw [List.forall_mem_cons] at hidxb hidxs ⊢
    constructor
    · rw [a.idxb, a.idxs, a.nux, a.rows]
      exact ⟨hidxb.1, hidxs.1⟩
    · exact ih hidxb.2 hidxs.2

/-- An iterate that suits the stages suits those that agree with them. -/
theorem suits_alike (ha : List.Forall₂ Stage.Alike stages stages') {it : Iterate α} (h : Suits stages it)
    (hl : Linked stages') : Suits stages' it := by
  have hidx := indices_alike ha h.idxb h.idxs
  exact {
    linked := hl
    idxb := fun s hs => (hidx s hs).1
    idxs := fun s hs => (hidx s hs).2
    sized :=
      { ux := by rw [total_map_related ha fun _ _ a => a.nv, h.sized.ux]
        pi := by rw [total_map_related ha fun _ _ a => a.ne, h.sized.pi]
        lam := by rw [total_map_related ha fun _ _ a => a.nc, h.sized.lam]
        t := by rw [total_map_related ha fun _ _ a => a.nc, h.sized.t] } }

end Walk

/-! ## Updates -/

/-- Where an update answers, it answers on a problem that agrees with the first, over any
    workspace for it, and the residuals agree as far as the data do that they refer to. -/
theorem Workspace.update_alike [Stored α] [FixedWidth α] [Scalar α] {q q' : Qp α} (h : q.Laid) (h' : q'.Laid)
    (ha : List.Forall₂ Stage.Alike q.stages q'.stages) {w w' r : Workspace α} {it : Iterate α}
    (hu : w.update q it = .ok r) (hw' : checkDims w'.dims q'.dims = .ok ()) :
    ∃ r', w'.update q' it = .ok r' ∧
      Residuals.Agree (q'.stages.map Stage.rhs = q.stages.map Stage.rhs) (q'.stages.map Stage.d = q.stages.map Stage.d)
        (q'.stages.map Stage.m = q.stages.map Stage.m) r.residuals r'.residuals := by
  obtain ⟨-, hfits, rfl⟩ := (update_eq_ok h).mp hu
  have hsuits := h.suits hfits
  have hsuits' := suits_alike ha hsuits h'.linked
  have hidx' := fun s hs => And.intro (hsuits'.idxb s hs) (hsuits'.idxs s hs)
  refine ⟨{ w' with residuals := stageResiduals q'.stages it }, ?_, stageResiduals_alike ha hsuits hsuits'⟩
  rw [update_eq h' hw' hidx', (iterate_check_eq_ok h').mpr hsuits'.sized]
  rfl

end HorizonQp
