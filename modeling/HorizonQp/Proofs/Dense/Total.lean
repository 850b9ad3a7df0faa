/-
  HorizonQp.Proofs.Dense.Total — how an update of dense residuals ends.

  The checks compare the number of entries of a matrix with the dimensions (`Lengths`), both
  as words, and the kernels ask for its shape (`Shapes`). An update whose arrays have the
  right lengths answers when the shapes agree too and breaks when they do not; every other
  update reports a length or an index (`update_ends`). A workspace holds multipliers of either
  kind, so that a word counts the rows of its dimensions (`Used.counted`).

  Done in place an update writes the stationarity residual before a kernel has looked at the
  shapes (`updateInPlace`). So one that breaks leaves a workspace of mixed contents, as it
  does for a Hessian of two variables with four entries in one row (`update_wide`); any other
  does everything or nothing.
-/

import HorizonQp.Binary.Numbers
import HorizonQp.Proofs.Dense.Update

namespace HorizonQp

open Linear (Matrix axpby? scatterAdd? copy? mulDot?)
open Word (wrap)

variable {α : Type}

namespace DenseQp

/-! ## Lengths and shapes -/

/-- Every matrix has as many entries as its own shape says. A word counts those of the
    Hessian, as it does those of every vector. -/
structure WellShaped (q : DenseQp α) : Prop where
  H : q.H.WellShaped
  H_lt : q.H.data.length < Word.limit
  A : q.A.WellShaped
  Ct : q.Ct.WellShaped

/-- Every array has as many entries as the dimensions say, and every bounded variable exists. -/
structure Lengths (q : DenseQp α) (it : DenseIterate α) : Prop where
  g : q.dims.nv = q.g.length
  b : q.dims.ne = q.b.length
  idxb : q.dims.nb = q.idxb.length
  idxb_lt : ∀ i ∈ q.idxb, i < q.dims.nv
  d : q.dims.nc = q.d.length
  m : q.dims.nc = q.m.length
  H : wrap (q.dims.nv * q.dims.nv) = q.H.count
  A : wrap (q.dims.ne * q.dims.nv) = q.A.count
  Ct : wrap (q.dims.nv * q.dims.ng) = q.Ct.count
  v : q.dims.nv = it.v.length
  pi : q.dims.ne = it.pi.length
  lam : q.dims.nc = it.lam.length
  t : q.dims.nc = it.t.length

/-- The matrices have the shapes that the dimensions say. Without variables the Hessian may
    have any number of rows, which then hold nothing. -/
structure Shapes (q : DenseQp α) : Prop where
  H_rows : 0 < q.dims.nv → q.H.rows = q.dims.nv
  H_cols : q.H.cols = q.dims.nv
  A_rows : q.A.rows = q.dims.ne
  A_cols : q.A.cols = q.dims.nv
  Ct_rows : q.Ct.rows = q.dims.nv
  Ct_cols : q.Ct.cols = q.dims.ng

variable {q : DenseQp α} {it : DenseIterate α}

/-- A kernel that looks for `nv` rows of `nv` entries finds them in a matrix of as many entries
    exactly when it is square: with at least `nv` rows the products do not leave a word. -/
theorem rows_enough_iff (hq : q.WellShaped) (hl : wrap (q.dims.nv * q.dims.nv) = q.H.count) (hc : q.H.cols = q.dims.nv) :
    q.dims.nv ≤ q.H.rows ↔ (0 < q.dims.nv → q.H.rows = q.dims.nv) := by
  constructor
  · intro hrows hpos
    have hentries : q.H.data.length = q.H.rows * q.dims.nv := hc ▸ hq.H
    have hle : q.dims.nv * q.dims.nv ≤ q.H.rows * q.dims.nv := Nat.mul_le_mul_right _ hrows
    have hfit : q.dims.nv * q.dims.nv < Word.limit := Nat.lt_of_le_of_lt (hentries ▸ hle) hq.H_lt
    rw [Word.wrap_of_lt hfit, Matrix.count, Word.wrap_of_lt hq.H_lt, hentries] at hl
    exact (Nat.eq_of_mul_eq_mul_right hpos hl).symm
  · intro h
    rcases Nat.eq_zero_or_pos q.dims.nv with hzero | hpos
    · rw [hzero]
      exact Nat.zero_le _
    · exact Nat.le_of_eq (h hpos).symm

theorem fits_iff (hq : q.WellShaped) : q.Fits it ↔ q.dims.Counted ∧ q.Lengths it ∧ q.Shapes := by
  constructor
  · intro f
    exact ⟨f.counted,
      ⟨f.g, f.b, f.idxb, f.idxb_lt, f.d, f.m, f.H_count, f.A_count, f.Ct_count, f.v, f.pi, f.lam, f.t⟩,
      (rows_enough_iff hq f.H_count f.H_cols).mp f.H_rows, f.H_cols, f.A_rows, f.A_cols, f.Ct_rows, f.Ct_cols⟩
  · intro ⟨hcounted, l, s⟩
    exact ⟨hcounted, l.g, l.b, l.idxb, l.idxb_lt, l.d, l.m, l.H, l.A, l.Ct, (rows_enough_iff hq l.H s.H_cols).mpr s.H_rows,
      s.H_cols, hq.H.filled, s.A_rows, s.A_cols, hq.A.filled, s.Ct_rows, s.Ct_cols, hq.Ct.filled, l.v, l.pi, l.lam, l.t⟩

theorem check_iff {work : DenseDims} : q.check work it = .ok () ↔ work = q.dims ∧ q.Lengths it := by
  rw [check_eq_ok, checkData_eq_ok, checkIterate_eq_ok]
  refine and_congr_right fun _ => ?_
  constructor
  · intro ⟨⟨g, b, idxb, idxb_lt, d, m, H, A, Ct⟩, v, pi, lam, t⟩
    exact ⟨g, b, idxb, idxb_lt, d, m, H, A, Ct, v, pi, lam, t⟩
  · intro l
    exact ⟨⟨l.g, l.b, l.idxb, l.idxb_lt, l.d, l.m, l.H, l.A, l.Ct⟩, l.v, l.pi, l.lam, l.t⟩

/-- What a check of a problem reports: a length, or the index of a variable that does not exist. -/
def Reported (q : DenseQp α) : QpError → Prop
  | .incompatibleDimension _ _ => True
  | .indexOutOfRange k limit => k ∈ q.idxb ∧ limit = q.dims.nv ∧ limit ≤ k
  | _ => False

theorem check_fails (work : DenseDims) : (Attempt.ofExcept (q.check work it)).FailsWith (Failure.Reports q.Reported) := by
  have len (expected found : Nat) :
      (Attempt.ofExcept (checkLength expected found)).FailsWith (Failure.Reports q.Reported) := checkLength_fails trivial
  refine .ofChecks ?_ fun _ => .ofChecks ?_ fun _ => ?_
  · exact .ofChecks (len _ _) fun _ => .ofChecks (len _ _) fun _ => .ofChecks (len _ _) fun _ => len _ _
  · refine .ofChecks (len _ _) fun _ => .ofChecks (len _ _) fun _ => .ofChecks (len _ _) fun _ => ?_
    refine .ofChecks (checkIndices_fails fun k hk hle => ⟨hk, rfl, hle⟩) fun _ => ?_
    exact .ofChecks (len _ _) fun _ => .ofChecks (len _ _) fun _ => .ofChecks (len _ _) fun _ =>
      .ofChecks (len _ _) fun _ => len _ _
  · exact .ofChecks (len _ _) fun _ => .ofChecks (len _ _) fun _ => .ofChecks (len _ _) fun _ => len _ _

/-! ## Working in place -/

variable [Scalar α]

/-- The kernels that work on the stationarity residual, in their order. -/
def stationarityKernels (q : DenseQp α) (it : DenseIterate α) : List (List α → Option (List α)) := [
  fun r => copy? r.length q.g,
  fun r => do (← q.H.filled?).symmetricProduct? .lower 1 it.v 1 r,
  fun r => do (← q.A.filled?).transposedProduct? (-1) it.pi 1 r,
  fun r => do scatterAdd? 1 (← q.multipliers? it .lb .ub) q.idxb r,
  fun r => do (← q.Ct.filled?).product? 1 (← q.multipliers? it .lg .ug) 1 r]

def equationsKernels (q : DenseQp α) (it : DenseIterate α) : List (List α → Option (List α)) := [
  fun r => copy? r.length q.b,
  fun r => do (← q.A.filled?).product? 1 it.v (-1) r]

def inequalitiesKernels (q : DenseQp α) (it : DenseIterate α) : List (List α → Option (List α)) := [
  fun r => do copy? r.length (← q.inequalities? it)]

theorem foldlM_stationarityKernels {room : List α} (h : room.length = q.g.length) :
    (q.stationarityKernels it).foldlM (fun r kernel => kernel r) room = q.stationarity? it := by
  simp only [stationarityKernels, stationarity?, costs?, List.foldlM_cons, List.foldlM_nil, copy?, if_pos h,
    Option.bind_eq_bind, Option.bind_some, Option.bind_assoc, Option.pure_def, Option.bind_fun_some]

theorem foldlM_equationsKernels {room : List α} (h : room.length = q.b.length) :
    (q.equationsKernels it).foldlM (fun r kernel => kernel r) room = q.equations? it := by
  simp only [equationsKernels, equations?, List.foldlM_cons, List.foldlM_nil, copy?, if_pos h, Option.bind_eq_bind,
    Option.bind_some, Option.pure_def, Option.bind_fun_some]

theorem foldlM_inequalitiesKernels {room : List α} (hf : q.Fits it) (h : room.length = q.dims.nc) :
    (q.inequalitiesKernels it).foldlM (fun r kernel => kernel r) room = some (q.inequalities it) := by
  simp only [inequalitiesKernels, List.foldlM_cons, List.foldlM_nil, copy?, inequalities?_eq hf,
    if_pos (h.trans (length_inequalities hf).symm), Option.bind_eq_bind, Option.bind_some, Option.pure_def]

/-- Every kernel keeps the length of what it works on. -/
theorem length_kernels :
    ∀ kernel ∈ q.stationarityKernels it ++ q.equationsKernels it ++ q.inequalitiesKernels it,
      ∀ r r', kernel r = some r' → r'.length = r.length := by
  have copy (src r r' : List α) (h : copy? r.length src = some r') : r'.length = r.length := by
    rcases Option.ite_none_right_eq_some.mp h with ⟨hl, ⟨⟩⟩
    exact hl.symm
  have product {A : Matrix α} (hA : A.Filled) {a b : α} {x r r' : List α} (h : A.product? a x b r = some r') :
      r'.length = r.length := by
    rcases Option.ite_none_right_eq_some.mp h with ⟨⟨-, hr⟩, ⟨⟩⟩
    exact Matrix.length_product hA _ _ _ (Nat.le_of_eq hr.symm)
  simp only [stationarityKernels, equationsKernels, inequalitiesKernels, List.cons_append, List.nil_append,
    List.forall_mem_cons, List.not_mem_nil, false_imp_iff, implies_true, and_true, Option.bind_eq_bind,
    Option.bind_eq_some_iff, Matrix.filled?_eq_some]
  refine ⟨fun r r' h => copy q.g r r' h, ?_, ?_, ?_, ?_, fun r r' h => copy q.b r r' h, ?_, ?_⟩
  · rintro r r' ⟨_, -, h⟩
    rcases Option.ite_none_right_eq_some.mp h with ⟨-, ⟨⟩⟩
    exact Matrix.length_symmetricProduct ..
  · rintro r r' ⟨_, -, h⟩
    rcases Option.ite_none_right_eq_some.mp h with ⟨⟨-, hc⟩, ⟨⟩⟩
    exact Matrix.length_transposedProduct _ _ _ hc
  · rintro r r' ⟨x, -, h⟩
    rcases Option.ite_none_right_eq_some.mp h with ⟨-, ⟨⟩⟩
    exact Linear.length_scatterAdd ..
  · rintro r r' ⟨_, ⟨hCt, rfl⟩, x, -, h⟩
    exact product hCt h
  · rintro r r' ⟨_, ⟨hA, rfl⟩, h⟩
    exact product hA h
  · rintro r r' ⟨x, -, h⟩
    exact copy x r r' h

end DenseQp

/-- A vector of the residuals that kernels work on. -/
structure Residuals.Part (α : Type) where
  get : Residuals α → List α
  put : Residuals α → List α → Residuals α
  get_put : ∀ r x, get (put r x) = x
  put_put : ∀ r x y, put (put r x) y = put r y
  put_get : ∀ r, put r (get r) = r

namespace Residuals.Part

def stationarity : Part α where
  get r := r.stationarity
  put r x := { r with stationarity := x }
  get_put _ _ := rfl
  put_put _ _ _ := rfl
  put_get _ := rfl

def equations : Part α where
  get r := r.equations
  put r x := { r with equations := x }
  get_put _ _ := rfl
  put_put _ _ _ := rfl
  put_get _ := rfl

def inequalities : Part α where
  get r := r.inequalities
  put r x := { r with inequalities := x }
  get_put _ _ := rfl
  put_put _ _ _ := rfl
  put_get _ := rfl

/-- The steps of a workspace that let the kernels work on the part. -/
def steps (part : Part α) (kernels : List (List α → Option (List α))) :
    List (DenseWorkspace α → Attempt QpError (DenseWorkspace α)) :=
  kernels.map fun kernel w => do
    let x ← .require (kernel (part.get w.residuals))
    pure { w with residuals := part.put w.residuals x }

theorem inTurn_steps (part : Part α) {kernels : List (List α → Option (List α))} {w : DenseWorkspace α} :
    inTurn (part.steps kernels) w =
      Attempt.require (kernels.foldlM (fun x kernel => kernel x) (part.get w.residuals)) >>= fun x =>
        pure { w with residuals := part.put w.residuals x } := by
  induction kernels generalizing w with
  | nil =>
    show _ = Except.ok { w with residuals := part.put w.residuals (part.get w.residuals) }
    rw [part.put_get]
    rfl
  | cons kernel kernels ih =>
    rw [steps, List.map_cons, inTurn_cons, List.foldlM_cons]
    cases kernel (part.get w.residuals) with
    | none => rfl
    | some x =>
      have h := ih (w := { w with residuals := part.put w.residuals x })
      simp only [part.get_put, part.put_put] at h
      exact h

end Residuals.Part

namespace DenseWorkspace

variable [Scalar α]

/-- The steps of an update up to the stationarity residual: the checks, and its kernels. -/
def frontSteps (q : DenseQp α) (it : DenseIterate α) : List (DenseWorkspace α → Attempt QpError (DenseWorkspace α)) :=
  (fun w => .ofExcept (q.check w.dims it) >>= fun _ => pure w) ::
    Residuals.Part.stationarity.steps (q.stationarityKernels it)

def putProducts (q : DenseQp α) (it : DenseIterate α) (w : DenseWorkspace α) : Attempt QpError (DenseWorkspace α) := do
  let products ← .require (mulDot? w.residuals.complementarity.length it.lam it.t)
  let r ← .require (axpby? (-1) q.m 1 products.1)
  pure { w with residuals := { w.residuals with complementarity := r, mu := DenseQp.meanGap q.dims products.2 } }

/-- The steps of an update after the stationarity residual. -/
def backSteps (q : DenseQp α) (it : DenseIterate α) : List (DenseWorkspace α → Attempt QpError (DenseWorkspace α)) :=
  Residuals.Part.equations.steps (q.equationsKernels it) ++
    (Residuals.Part.inequalities.steps (q.inequalitiesKernels it) ++ [putProducts q it])

/-- The workspace that an update leaves, and how the update ends. -/
def updateInPlace (w : DenseWorkspace α) (q : DenseQp α) (it : DenseIterate α) :
    DenseWorkspace α × Attempt QpError Unit :=
  inPlace (frontSteps q it ++ backSteps q it) w

/-- The workspaces that were made for any dimensions and went through any updates, whatever
    became of these. -/
inductive Used [Stored α] : DenseWorkspace α → Prop where
  | new {d : DenseDims} {w : DenseWorkspace α} : new? d = some w → Used w
  | update {w : DenseWorkspace α} {q : DenseQp α} (it : DenseIterate α) :
      Used w → q.WellShaped → Used (w.updateInPlace q it).1

/-- The workspace has room for the residuals of its dimensions. -/
structure Holds (w : DenseWorkspace α) : Prop where
  stationarity : w.residuals.stationarity.length = w.dims.nv
  equations : w.residuals.equations.length = w.dims.ne
  inequalities : w.residuals.inequalities.length = w.dims.nc
  complementarity : w.residuals.complementarity.length = w.dims.nc

variable {w : DenseWorkspace α} {q : DenseQp α} {it : DenseIterate α}

omit [Scalar α] in
theorem Holds.put (hw : w.Holds) (part : Residuals.Part α)
    (hpart : part = .stationarity ∨ part = .equations ∨ part = .inequalities) {x : List α}
    (hx : x.length = (part.get w.residuals).length) : Holds { w with residuals := part.put w.residuals x } := by
  rcases hpart with rfl | rfl | rfl
  · exact ⟨hx.trans hw.stationarity, hw.equations, hw.inequalities, hw.complementarity⟩
  · exact ⟨hw.stationarity, hx.trans hw.equations, hw.inequalities, hw.complementarity⟩
  · exact ⟨hw.stationarity, hw.equations, hx.trans hw.inequalities, hw.complementarity⟩

theorem Holds.putProducts {w' : DenseWorkspace α} (hw : w.Holds) (h : putProducts q it w = .ok w') : w'.Holds := by
  simp only [DenseWorkspace.putProducts, Attempt.bind_eq_ok, Attempt.require_eq_ok, Attempt.pure_eq_ok, mulDot?, axpby?,
    Option.ite_none_right_eq_some, Option.some.injEq] at h
  obtain ⟨_, ⟨⟨hl, ht⟩, rfl⟩, _, ⟨hm, rfl⟩, rfl⟩ := h
  have hproducts : (Linear.mul it.lam it.t).length = w.residuals.complementarity.length :=
    (Linear.length_mul (hl.symm.trans ht)).trans ht.symm
  exact ⟨hw.stationarity, hw.equations, hw.inequalities,
    (Linear.length_axpby hm.symm).trans (hproducts.trans hw.complementarity)⟩

/-- A step of an update checks, lets a kernel work on a part of the residuals, or puts the
    products. -/
theorem step_cases {step : DenseWorkspace α → Attempt QpError (DenseWorkspace α)}
    (hstep : step ∈ frontSteps q it ++ backSteps q it) {w' : DenseWorkspace α} (h : step w = .ok w') :
    w' = w ∨
    (∃ part : Residuals.Part α, (part = .stationarity ∨ part = .equations ∨ part = .inequalities) ∧
      ∃ x, x.length = (part.get w.residuals).length ∧ w' = { w with residuals := part.put w.residuals x }) ∨
    putProducts q it w = .ok w' := by
  have hlen := @DenseQp.length_kernels α q it _
  have kernels (part : Residuals.Part α) (ks : List (List α → Option (List α)))
      (hks : ∀ k ∈ ks, ∀ r r', k r = some r' → r'.length = r.length) (hstep : step ∈ part.steps ks) :
      ∃ x, x.length = (part.get w.residuals).length ∧ w' = { w with residuals := part.put w.residuals x } := by
    rcases List.mem_map.mp hstep with ⟨k, hk, rfl⟩
    rcases Attempt.bind_eq_ok.mp h with ⟨x, hx, ⟨⟩⟩
    exact ⟨x, hks k hk _ _ (Attempt.require_eq_ok.mp hx), rfl⟩
  simp only [List.mem_append, or_imp, forall_and] at hlen
  obtain ⟨⟨hs, he⟩, hi⟩ := hlen
  simp only [frontSteps, backSteps, List.mem_append, List.mem_cons, List.not_mem_nil, or_false] at hstep
  rcases hstep with (rfl | hstep) | hstep | hstep | rfl
  · rcases Attempt.bind_eq_ok.mp h with ⟨u, -, ⟨⟩⟩
    exact .inl rfl
  · exact .inr (.inl ⟨.stationarity, .inl rfl, kernels _ _ hs hstep⟩)
  · exact .inr (.inl ⟨.equations, .inr (.inl rfl), kernels _ _ he hstep⟩)
  · exact .inr (.inl ⟨.inequalities, .inr (.inr rfl), kernels _ _ hi hstep⟩)
  · exact .inr (.inr h)

/-- Every step of an update leaves room for the residuals. -/
theorem Holds.step :
    ∀ step ∈ frontSteps q it ++ backSteps q it, ∀ w w' : DenseWorkspace α, w.Holds → step w = .ok w' → w'.Holds := by
  intro step hstep w w' hw h
  rcases step_cases hstep h with rfl | ⟨part, hpart, x, hx, rfl⟩ | h
  · exact hw
  · exact hw.put part hpart hx
  · exact hw.putProducts h

/-- No step of an update changes the dimensions. -/
theorem dims_step :
    ∀ step ∈ frontSteps q it ++ backSteps q it, ∀ w w' : DenseWorkspace α, step w = .ok w' → w'.dims = w.dims := by
  intro step hstep w w' h
  rcases step_cases hstep h with rfl | ⟨part, -, x, -, rfl⟩ | h
  · rfl
  · rfl
  · rcases Attempt.bind_eq_ok.mp h with ⟨_, -, h⟩
    rcases Attempt.bind_eq_ok.mp h with ⟨_, -, ⟨⟩⟩
    rfl

theorem Used.holds [Stored α] (h : w.Used) : w.Holds := by
  induction h with
  | new h =>
    simp only [new?, Residuals.zeros?, Linear.zeros?, Option.bind_eq_bind, Option.bind_eq_some_iff, Option.pure_def,
      Option.ite_none_right_eq_some, Option.some.injEq] at h
    obtain ⟨-, r, ⟨g, ⟨-, rfl⟩, b, ⟨-, rfl⟩, i, ⟨-, rfl⟩, m, ⟨-, rfl⟩, rfl⟩, rfl⟩ := h
    constructor <;> exact List.length_replicate
  | update it _ _ ih => exact inPlace_keeps Holds.step ih

/-- Where numbers have two bytes or more, an array that fits one allocation has less than a
    quarter of the entries that a word counts. -/
theorem Used.counted [Stored α] (hwidth : 2 ≤ Stored.width α) (h : w.Used) : w.dims.Counted := by
  induction h with
  | @new d w h =>
    obtain ⟨⟨hnb, hng⟩, h⟩ := Option.ite_none_right_eq_some.mp h
    rcases Option.bind_eq_some_iff.mp h with ⟨r, -, ⟨⟩⟩
    have few {n : Nat} (hn : Word.allocates (Stored.width α) n) : n * 2 ≤ Word.maxBytes :=
      Nat.le_trans (Nat.mul_le_mul_left n hwidth) (of_decide_eq_true hn)
    have hnb := few hnb
    have hng := few hng
    simp only [DenseDims.Counted, Word.maxBytes, Word.limit] at *
    omega
  | @update w q it _ _ ih =>
    refine inPlace_keeps (P := fun w' : DenseWorkspace α => w'.dims.Counted) ?_ ih
    intro step hstep w₁ w₂ hw₁ h
    exact dims_step step hstep w₁ w₂ h ▸ hw₁

/-! ## How an update ends -/

section Endings

variable (hw : w.Holds) (hdims : w.dims = q.dims) (hl : q.Lengths it)
include hw hdims hl

/-- Past the checks the first steps put the stationarity residual, if there is one. -/
theorem inTurn_frontSteps :
    inTurn (frontSteps q it) w = Attempt.require (q.stationarity? it) >>= fun x =>
      pure { w with residuals := { w.residuals with stationarity := x } } := by
  have hroom : w.residuals.stationarity.length = q.g.length := by rw [hw.stationarity, hdims, hl.g]
  rw [frontSteps, inTurn_cons, DenseQp.check_iff.mpr ⟨hdims, hl⟩]
  exact (Residuals.Part.inTurn_steps .stationarity).trans
    (congrArg (Attempt.require · >>= _) (DenseQp.foldlM_stationarityKernels hroom))

/-- Where everything fits, the steps put the residuals of the problem. -/
theorem inTurn_updateSteps (hf : q.Fits it) :
    inTurn (frontSteps q it ++ backSteps q it) w = .ok { w with residuals := q.residuals it } := by
  have hb : w.residuals.equations.length = q.b.length := by rw [hw.equations, hdims, hl.b]
  have hi : w.residuals.inequalities.length = q.dims.nc := by rw [hw.inequalities, hdims]
  have hm : w.residuals.complementarity.length = q.dims.nc := by rw [hw.complementarity, hdims]
  rw [inTurn_append, inTurn_frontSteps hw hdims hl, DenseQp.stationarity?_eq hf]
  simp only [Attempt.require_some, Attempt.ok_bind, pure_bind, backSteps, inTurn_append, Residuals.Part.inTurn_steps,
    Residuals.Part.equations, Residuals.Part.inequalities, DenseQp.foldlM_equationsKernels hb, DenseQp.equations?_eq hf,
    DenseQp.foldlM_inequalitiesKernels hf hi, inTurn_cons, putProducts, hm, DenseQp.products?_eq hf.lam hf.t,
    DenseQp.complementarity?_eq hf.m hf.lam hf.t]
  rfl

/-- With a shape that is not that of the dimensions there is no stationarity residual. -/
theorem inTurn_of_not_shapes (hq : q.WellShaped) (hs : ¬q.Shapes) :
    w.update q it = .error .breach ∧ inTurn (frontSteps q it) w = .error .breach := by
  rcases DenseQp.check_eq_ok.mp (DenseQp.check_iff.mpr ⟨hdims, hl⟩) with ⟨-, hdata, hiterate⟩
  have hfits : ¬q.Fits it := fun hf => hs ((DenseQp.fits_iff hq).mp hf).2.2
  have hnone : q.stationarity? it = none :=
    Option.eq_none_iff_forall_ne_some.mpr fun _ h => hfits (DenseQp.fits_of_stationarity? hdata hiterate h)
  have hresiduals : q.residuals? it = none :=
    Option.eq_none_iff_forall_ne_some.mpr fun _ h => hfits (DenseQp.fits_of_residuals? hdata hiterate h)
  constructor
  · rw [update, DenseQp.check_iff.mpr ⟨hdims, hl⟩, hresiduals]
    rfl
  · rw [inTurn_frontSteps hw hdims hl, hnone]
    rfl

omit hw hdims hl in
/-- Nothing but the stationarity residual changes up to its last kernel. -/
theorem inPlace_frontSteps :
    ∃ x, (inPlace (frontSteps q it) w).1 = { w with residuals := { w.residuals with stationarity := x } } := by
  refine inPlace_keeps (P := fun w' => ∃ x, w' = { w with residuals := { w.residuals with stationarity := x } }) ?_
    ⟨w.residuals.stationarity, rfl⟩
  intro step hstep w₁ w₂ ⟨x, hx⟩ h
  rcases List.mem_cons.mp hstep with rfl | hstep
  · rcases Attempt.bind_eq_ok.mp h with ⟨_, -, h⟩
    cases h
    exact ⟨x, hx⟩
  · rcases List.mem_map.mp hstep with ⟨kernel, -, rfl⟩
    rcases Attempt.bind_eq_ok.mp h with ⟨y, -, h⟩
    cases h
    exact ⟨y, by rw [hx]; rfl⟩

end Endings

/-- How an update ends, for arrays of any lengths and matrices of any shapes. -/
structure Ends (w : DenseWorkspace α) (q : DenseQp α) (it : DenseIterate α) : Prop where
  /-- It answers when the lengths and the shapes are those of the dimensions. -/
  answers : (∃ w', w.update q it = .ok w') ↔ w.dims = q.dims ∧ q.Lengths it ∧ q.Shapes
  /-- It breaks when a shape is not. -/
  breaks : w.update q it = .error .breach ↔ w.dims = q.dims ∧ q.Lengths it ∧ ¬q.Shapes
  reports : ∀ e, w.update q it = .error (.reported e) → q.Reported e
  /-- Done in place it ends as it does on a copy. -/
  ending : (w.updateInPlace q it).2 = (w.update q it).map fun _ => ()
  whole : w.update q it ≠ .error .breach → w.updateInPlace q it = allOrNothing w (w.update q it)
  /-- When it breaks only the stationarity residual may have changed. -/
  partly : w.update q it = .error .breach →
    ∃ x, (w.updateInPlace q it).1 = { w with residuals := { w.residuals with stationarity := x } }

theorem answers_iff (hcounted : w.dims.Counted) (hq : q.WellShaped) :
    (∃ w', w.update q it = .ok w') ↔ w.dims = q.dims ∧ q.Lengths it ∧ q.Shapes := by
  constructor
  · intro ⟨w', h⟩
    obtain ⟨hdims, hf, -⟩ := update_eq_ok.mp h
    exact ⟨hdims, ((DenseQp.fits_iff hq).mp hf).2⟩
  · intro ⟨hdims, hls⟩
    exact ⟨_, update_eq_ok.mpr ⟨hdims, (DenseQp.fits_iff hq).mpr ⟨hdims ▸ hcounted, hls⟩, rfl⟩⟩

/-- Nothing comes after a check that fails. -/
theorem ends_of_check_error (hcounted : w.dims.Counted) (hq : q.WellShaped) {e : QpError}
    (hc : q.check w.dims it = .error e) : w.Ends q it := by
  have hreport : q.Reported e := @DenseQp.check_fails α q it w.dims (.reported e) (by rw [hc]; rfl)
  have hupdate : w.update q it = .error (.reported e) := by rw [update, hc]; rfl
  have hplace : w.updateInPlace q it = (w, .error (.reported e)) := by
    rw [updateInPlace, frontSteps, List.cons_append, inPlace, hc]
    rfl
  have hnot : ¬(w.dims = q.dims ∧ q.Lengths it) := by
    intro h
    cases hc.symm.trans (DenseQp.check_iff.mpr h)
  refine ⟨answers_iff hcounted hq, ?_, ?_, ?_, ?_, ?_⟩
  · rw [hupdate]
    constructor
    · rintro ⟨⟩
    · exact fun h => absurd ⟨h.1, h.2.1⟩ hnot
  · rintro e' h
    cases hupdate.symm.trans h
    exact hreport
  · rw [hplace, hupdate]
    rfl
  · rw [hplace, hupdate]
    exact fun _ => rfl
  · rw [hupdate]
    intro h
    cases h

section Checked

variable (hw : w.Holds) (hcounted : w.dims.Counted) (hq : q.WellShaped) (hdims : w.dims = q.dims) (hl : q.Lengths it)
include hw hcounted hq hdims hl

theorem ends_of_shapes (hs : q.Shapes) : w.Ends q it := by
  have hf := (DenseQp.fits_iff hq).mpr ⟨hdims ▸ hcounted, hl, hs⟩
  have hupdate : w.update q it = .ok { w with residuals := q.residuals it } := update_eq_ok.mpr ⟨hdims, hf, rfl⟩
  have hplace := inPlace_of_ok (inTurn_updateSteps hw hdims hl hf)
  refine ⟨answers_iff hcounted hq, ?_, ?_, ?_, ?_, ?_⟩
  · rw [hupdate]
    exact ⟨(nomatch ·), fun h => absurd hs h.2.2⟩
  · rw [hupdate]
    exact fun e h => nomatch h
  · rw [updateInPlace, hplace, hupdate]
    rfl
  · rw [updateInPlace, hplace, hupdate]
    exact fun _ => rfl
  · rw [hupdate]
    exact fun h => nomatch h

theorem ends_of_not_shapes (hs : ¬q.Shapes) : w.Ends q it := by
  rcases inTurn_of_not_shapes hw hdims hl hq hs with ⟨hupdate, hfront⟩
  have hplace : w.updateInPlace q it = inPlace (frontSteps q it) w := inPlace_append_of_error hfront
  refine ⟨answers_iff hcounted hq, ⟨fun _ => ⟨hdims, hl, hs⟩, fun _ => hupdate⟩, ?_, ?_, fun h => absurd hupdate h, ?_⟩
  · rw [hupdate]
    exact fun e h => nomatch h
  · rw [hplace, inPlace_ending, hfront, hupdate]
  · intro _
    rw [hplace]
    exact inPlace_frontSteps

end Checked

/-- Every update of a used workspace answers, reports or breaks by the lengths and the shapes
    alone. One that does not break does everything or nothing. -/
theorem update_ends [Stored α] (hwidth : 2 ≤ Stored.width α) {w : DenseWorkspace α} (hw : w.Used) {q : DenseQp α}
    (hq : q.WellShaped) (it : DenseIterate α) : w.Ends q it := by
  have hcounted := hw.counted hwidth
  cases hc : q.check w.dims it with
  | error e => exact ends_of_check_error hcounted hq hc
  | ok u =>
    rcases DenseQp.check_iff.mp hc with ⟨hdims, hl⟩
    by_cases hs : q.Shapes
    · exact ends_of_shapes hw.holds hcounted hq hdims hl hs
    · exact ends_of_not_shapes hw.holds hcounted hq hdims hl hs

end DenseWorkspace

/-! ## A Hessian in one row -/

/-- Two free variables with the costs of one each, and the Hessian. -/
def DenseQp.twoVariables (H : Matrix Binary.Double) : DenseQp Binary.Double where
  dims := ⟨2, 0, 0, 0⟩
  H := H
  A := ⟨0, 2, []⟩
  Ct := ⟨2, 0, []⟩
  g := [⟨0x3ff0000000000000⟩, ⟨0x3ff0000000000000⟩]
  b := []
  idxb := []
  d := []
  m := []

namespace DenseWorkspace

theorem update_ends_two_variables : ∃ w : DenseWorkspace Binary.Double, w.Used ∧
    (DenseQp.twoVariables ⟨2, 2, [0, 0, 0, 0]⟩).WellShaped ∧ (DenseQp.twoVariables ⟨4, 1, [0, 0, 0, 0]⟩).WellShaped ∧
    (∃ w', w.update (DenseQp.twoVariables ⟨2, 2, [0, 0, 0, 0]⟩) ⟨[0, 0], [], [], []⟩ = .ok w') ∧
    (∃ e, w.update (DenseQp.twoVariables ⟨2, 2, [0, 0, 0, 0]⟩) ⟨[0], [], [], []⟩ = .error (.reported e)) ∧
    w.update (DenseQp.twoVariables ⟨4, 1, [0, 0, 0, 0]⟩) ⟨[0, 0], [], [], []⟩ = .error .breach := by
  have hnew : ∃ w : DenseWorkspace Binary.Double, new? ⟨2, 0, 0, 0⟩ = some w ∧ w.dims = ⟨2, 0, 0, 0⟩ := ⟨_, rfl, rfl⟩
  rcases hnew with ⟨w, hnew, hdims⟩
  have hw : w.Used := .new hnew
  have hwidth : 2 ≤ Stored.width Binary.Double := by decide
  have hsquare : (DenseQp.twoVariables ⟨2, 2, [0, 0, 0, 0]⟩).WellShaped := ⟨rfl, by decide, rfl, rfl⟩
  have htall : (DenseQp.twoVariables ⟨4, 1, [0, 0, 0, 0]⟩).WellShaped := ⟨rfl, by decide, rfl, rfl⟩
  have hlengths (H : Matrix Binary.Double) (hH : 4 = H.count) :
      (DenseQp.twoVariables H).Lengths ⟨[0, 0], [], [], []⟩ :=
    ⟨rfl, rfl, rfl, fun _ h => absurd h List.not_mem_nil, rfl, rfl, hH, rfl, rfl, rfl, rfl, rfl, rfl⟩
  have hshapes : (DenseQp.twoVariables ⟨2, 2, [0, 0, 0, 0]⟩).Shapes := ⟨fun _ => rfl, rfl, rfl, rfl, rfl, rfl⟩
  have hshort := update_ends hwidth hw hsquare ⟨[0], [], [], []⟩
  refine ⟨w, hw, hsquare, htall, (update_ends hwidth hw hsquare _).answers.mpr ⟨hdims, hlengths _ rfl, hshapes⟩, ?_,
    (update_ends hwidth hw htall _).breaks.mpr ⟨hdims, hlengths _ rfl, fun hs => absurd hs.H_cols (by decide)⟩⟩
  have hv (h : (DenseQp.twoVariables ⟨2, 2, [0, 0, 0, 0]⟩).Lengths ⟨[0], [], [], []⟩) : False :=
    absurd h.v (by decide)
  cases hu : w.update (DenseQp.twoVariables ⟨2, 2, [0, 0, 0, 0]⟩) ⟨[0], [], [], []⟩ with
  | ok w' => exact (hv (hshort.answers.mp ⟨w', hu⟩).2.1).elim
  | error failure =>
    cases failure with
    | reported e => exact ⟨e, rfl⟩
    | breach => exact (hv (hshort.breaks.mp hu).2.1).elim

/-- Four entries in one row pass for a Hessian of two variables: the update then breaks in the
    product, and leaves the gradient for the stationarity residual. -/
theorem update_wide : ∃ w : DenseWorkspace Binary.Double, w.Used ∧
    (DenseQp.twoVariables ⟨1, 4, [0, 0, 0, 0]⟩).WellShaped ∧
    w.update (DenseQp.twoVariables ⟨1, 4, [0, 0, 0, 0]⟩) ⟨[0, 0], [], [], []⟩ = .error .breach ∧
    (w.updateInPlace (DenseQp.twoVariables ⟨1, 4, [0, 0, 0, 0]⟩) ⟨[0, 0], [], [], []⟩).1 ≠ w := by
  refine ⟨⟨⟨2, 0, 0, 0⟩, [0, 0], [], [], [], 0⟩, .new (d := ⟨2, 0, 0, 0⟩) rfl, ⟨rfl, by decide, rfl, rfl⟩, rfl, ?_⟩
  decide

end DenseWorkspace

end HorizonQp
