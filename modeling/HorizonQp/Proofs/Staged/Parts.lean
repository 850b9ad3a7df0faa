/-
  HorizonQp.Proofs.Staged.Parts — iterates and residuals, stage by stage.

  A long vector holds the entries of every stage, one stage behind the other, so what
  belongs to stage `i` starts behind as many entries as the stages before it have (`part`).
  The walk gives each stage its own part of the iterate, the multipliers of the step into it
  and the variables behind it, and puts the residuals that it makes of them (`Stage.residuals`)
  at the same place: `residualsFrom_part`.
-/

import HorizonQp.Proofs.Staged.Slacks

namespace HorizonQp

open Linear (axpby mul)
open Finset (range)

variable {α : Type}

/-! ## Residuals of the stages -/

section Field

variable {K : Type} [ExactField K] {s : Stage K} {stages : List (Stage K)}

/-- The step into the first stage stops at the states of that stage. -/
theorem entered_past {entering : Option (List K)} (he : Enters (s :: stages) entering) (j : Nat) :
    Stage.entered s.nu entering (s.nux + j) = 0 := by
  cases entering with
  | none => rfl
  | some prev =>
    have hprev : prev.length = s.nx := he s rfl prev rfl
    have hnux : s.nux = s.nu + s.nx := rfl
    show (if s.nu ≤ s.nux + j then prev.getD (s.nux + j - s.nu) 0 else 0) = 0
    rw [if_pos (by omega), List.getD_eq_default _ _ (by omega)]

end Field

/-- Lists related entry by entry have one total, of what related entries have alike. -/
theorem total_map_related {ι κ : Type} {R : ι → κ → Prop} {is : List ι} {js : List κ} (h : List.Forall₂ R is js)
    {f : ι → Nat} {g : κ → Nat} (hfg : ∀ i j, R i j → g j = f i) : total (js.map g) = total (is.map f) := by
  induction h with
  | nil => rfl
  | cons hr _ ih => rw [List.map_cons, List.map_cons, total_cons, total_cons, ih, hfg _ _ hr]

theorem mul_take_drop [Mul α] (n : Nat) (x y : List α) :
    mul (x.take n) (y.take n) ++ mul (x.drop n) (y.drop n) = mul x y := by
  rw [mul, mul, mul, ← List.take_zipWith, ← List.drop_zipWith, List.take_append_drop]

section Walk

variable [Scalar α] {s : Stage α} {stages : List (Stage α)} {it : Iterate α} {entering : Option (List α)} {gap : α}

/-- The residuals of the stages behind the first. -/
def behind (s : Stage α) (stages : List (Stage α)) (it : Iterate α) (gap : α) : Residuals α :=
  residualsFrom stages (s.rest it) (some (it.pi.take s.ne)) (gap + Linear.sum (mul (it.lam.take s.nc) (it.t.take s.nc)))

theorem residualsFrom_cons :
    residualsFrom (s :: stages) it entering gap =
      (s.residuals (s.first it) entering (it.ux.drop s.nv) gap).before (behind s stages it gap) := rfl

theorem length_products (h : Sized stages it) : (mul it.lam it.t).length = total (stages.map Stage.nc) := by
  rw [Linear.length_mul (h.lam.trans h.t.symm), h.t]

theorem complementarity_eq (hl : Linked stages) (h : Sized stages it) :
    (residualsFrom stages it entering gap).complementarity =
      axpby (-1) (stages.flatMap Stage.m) 1 (mul it.lam it.t) := by
  induction stages generalizing it entering gap with
  | nil => rfl
  | cons s stages ih =>
    have hlam : (it.lam.take s.nc).length = s.nc := List.length_take_of_le h.lam_le
    have ht : (it.t.take s.nc).length = s.nc := List.length_take_of_le h.t_le
    have hm : s.m.length = (mul (it.lam.take s.nc) (it.t.take s.nc)).length := by
      rw [Linear.length_mul (hlam.trans ht.symm), ht, hl.1.m]
    show axpby (-1) s.m 1 (mul (it.lam.take s.nc) (it.t.take s.nc)) ++ (behind s stages it gap).complementarity = _
    rw [behind, ih hl.2.2 h.rest, ← mul_take_drop s.nc it.lam it.t, List.flatMap_cons]
    exact (List.zipWith_append hm).symm

end Walk

section Exact

variable {K : Type} [ExactField K] [DecidableEq K] {s : Stage K} {stages : List (Stage K)} {it : Iterate K}

theorem mu_eq {entering : Option (List K)} {gap : K} (h : Sized stages it) :
    (residualsFrom stages it entering gap).mu = gap + (mul it.lam it.t).sum := by
  induction stages generalizing it entering gap with
  | nil =>
    rw [List.eq_nil_of_length_eq_zero h.lam]
    exact (add_zero gap).symm
  | cons s stages ih =>
    show (behind s stages it gap).mu = _
    rw [behind, ih h.rest, Linear.sum_eq, ← mul_take_drop s.nc it.lam it.t, List.sum_append, add_assoc]
    rfl

/-- The stationarity of a stage, in the inputs and states and in the slacks behind them. -/
theorem Stage.Fed.stationarity_entries {p : Iterate K} {entering : Option (List K)} {after : List K}
    (h : s.Fed p entering after) (mu : K) :
    (∀ i < s.nux, (s.residuals p entering after mu).stationarity.getD i 0 =
      ∑ j ∈ range s.nux, s.hessian i j * p.ux.getD j 0 + s.rqz.getD i 0
        + s.leaving p.pi i - entered s.nu entering i
        + (∑ k ∈ range s.nb, if s.idxb.getD k 0 = i then s.net p.lam k else 0)
        + ∑ k ∈ range s.ng, s.DCt.entry i k * s.net p.lam (s.nb + k)) ∧
    (∀ j < s.ns, (s.residuals p entering after mu).stationarity.getD (s.nux + j) 0 =
      s.Z.getD j 0 * p.ux.getD (s.nux + j) 0 + s.rqz.getD (s.nux + j) 0 + p.lam.getD (s.idxs.getD j 0) 0
        + p.lam.getD (2 * s.rows + j) 0) ∧
    ∀ j < s.ns, (s.residuals p entering after mu).stationarity.getD (s.nux + s.ns + j) 0 =
      s.Z.getD (s.ns + j) 0 * p.ux.getD (s.nux + s.ns + j) 0 + s.rqz.getD (s.nux + s.ns + j) 0
        + p.lam.getD (s.rows + s.idxs.getD j 0) 0 + p.lam.getD (2 * s.rows + s.ns + j) 0 := by
  have hux := length_stationarity h.shaped p.ux p.pi p.lam h.entering
  have hsl := length_lowerSlackStationarity h.shaped h.ux h.lam
  rw [residuals]
  refine ⟨?_, ?_, ?_⟩
  · intro i hi
    rw [List.append_assoc, Linear.getD_append_ite, hux, if_pos hi,
      stationarity_entry h.shaped ⟨h.ux, h.pi, h.lam, h.entering⟩ hi]
  · intro j hj
    rw [List.append_assoc, Linear.getD_append_ite, hux, if_neg (by omega), Nat.add_sub_cancel_left,
      Linear.getD_append_ite, hsl, if_pos hj, lowerSlackStationarity_entry h.shaped h.idxs h.ux h.lam hj]
  · intro j hj
    rw [Linear.getD_append_ite, List.length_append, hux, hsl, if_neg (by omega), Nat.add_sub_cancel_left,
      upperSlackStationarity_entry h.shaped h.idxs h.ux h.lam hj]

end Exact

/-! ## Parts of long vectors -/

/-- The entries of stage `i`, in a vector of `n s` entries for each stage `s`. -/
def part (n : Stage α → Nat) (stages : List (Stage α)) (i : Nat) (x : List α) : List α :=
  Stage.run x (total ((stages.take i).map n)) ((stages[i]?).elim 0 n)

/-- The part of an iterate that belongs to stage `i`. -/
def Iterate.part (stages : List (Stage α)) (it : Iterate α) (i : Nat) : Iterate α :=
  ⟨HorizonQp.part Stage.nv stages i it.ux, HorizonQp.part Stage.ne stages i it.pi,
    HorizonQp.part Stage.nc stages i it.lam, HorizonQp.part Stage.nc stages i it.t⟩

/-- The residuals of stage `i`. -/
def Residuals.part (stages : List (Stage α)) (r : Residuals α) (i : Nat) : Residuals α :=
  ⟨HorizonQp.part Stage.nv stages i r.stationarity, HorizonQp.part Stage.ne stages i r.equations,
    HorizonQp.part Stage.nc stages i r.inequalities, HorizonQp.part Stage.nc stages i r.complementarity, r.mu⟩

/-- The multipliers of the step into stage `i`; `entering` are those of the step into the first stage. -/
def enteringAt (stages : List (Stage α)) (pi : List α) (entering : Option (List α)) : Nat → Option (List α)
  | 0 => entering
  | i + 1 => some (part Stage.ne stages i pi)

/-- The variables of the stages behind stage `i`. -/
def afterAt (stages : List (Stage α)) (ux : List α) (i : Nat) : List α :=
  ux.drop (total ((stages.take (i + 1)).map Stage.nv))

section Places

variable (n : Stage α → Nat) (s : Stage α) (stages : List (Stage α)) (i : Nat)

theorem part_zero (x : List α) : part n (s :: stages) 0 x = x.take (n s) := rfl

theorem part_succ (x : List α) : part n (s :: stages) (i + 1) x = part n stages i (x.drop (n s)) := by
  rw [part, part, Stage.run, Stage.run, List.drop_drop, List.take_succ_cons, List.map_cons, total_cons]
  rfl

variable {n}

theorem part_before {x y : List α} (hx : x.length = n s) : part n (s :: stages) 0 (x ++ y) = x := by
  rw [part_zero, List.take_left' hx]

theorem part_behind {x y : List α} (hx : x.length = n s) : part n (s :: stages) (i + 1) (x ++ y) = part n stages i y := by
  rw [part_succ, List.drop_left' hx]

theorem afterAt_succ (ux : List α) : afterAt (s :: stages) ux (i + 1) = afterAt stages (ux.drop s.nv) i := by
  rw [afterAt, afterAt, List.drop_drop, List.take_succ_cons, List.map_cons, total_cons]

theorem enteringAt_succ (pi : List α) (entering : Option (List α)) :
    enteringAt (s :: stages) pi entering (i + 1) = enteringAt stages (pi.drop s.ne) (some (pi.take s.ne)) i := by
  cases i with
  | zero => rfl
  | succ i => exact congrArg some (part_succ Stage.ne s stages i pi)

theorem Iterate.part_succ (it : Iterate α) : it.part (s :: stages) (i + 1) = (s.rest it).part stages i := by
  simp only [Iterate.part, Stage.rest, HorizonQp.part_succ]

end Places

/-- Every stage goes together with what the walk gives it. -/
theorem Suits.fed {stages : List (Stage α)} {it : Iterate α} {entering : Option (List α)} (h : Suits stages it) (he : Enters stages entering)
    {i : Nat} {s : Stage α} (hi : stages[i]? = some s) :
    s.Fed (it.part stages i) (enteringAt stages it.pi entering i) (afterAt stages it.ux i) := by
  induction stages generalizing it entering i with
  | nil => cases hi
  | cons s' stages ih =>
    cases i with
    | zero =>
      cases hi
      exact h.first he
    | succ i =>
      rw [Iterate.part_succ, enteringAt_succ, afterAt_succ]
      exact ih h.rest h.enters hi

section Walked

variable {K : Type} [ExactField K] [DecidableEq K] {stages : List (Stage K)} {it : Iterate K} {entering : Option (List K)}
  (h : Suits stages it) (he : Enters stages entering) {i : Nat} {s : Stage K} (hi : stages[i]? = some s)
include h he hi

/-- What the walk makes of a stage stands where the stage has its part. -/
theorem residualsFrom_part (gap : K) :
    (residualsFrom stages it entering gap).part stages i =
      s.residuals (it.part stages i) (enteringAt stages it.pi entering i) (afterAt stages it.ux i)
        (residualsFrom stages it entering gap).mu := by
  induction stages generalizing it entering i gap with
  | nil => cases hi
  | cons s' stages ih =>
    have hfront := (h.first he).holds gap
    rw [residualsFrom_cons]
    cases i with
    | zero =>
      cases hi
      simp only [Residuals.part, Residuals.before, part_before s _ hfront.stationarity, part_before s _ hfront.equations,
        part_before s _ hfront.inequalities, part_before s _ hfront.complementarity]
      rfl
    | succ i =>
      have hback := ih h.rest h.enters hi (gap + Linear.sum (mul (it.lam.take s'.nc) (it.t.take s'.nc)))
      rw [Iterate.part_succ, enteringAt_succ, afterAt_succ]
      refine Eq.trans ?_ hback
      simp only [Residuals.part, Residuals.before, part_behind s' _ i hfront.stationarity,
        part_behind s' _ i hfront.equations, part_behind s' _ i hfront.inequalities,
        part_behind s' _ i hfront.complementarity]
      rfl

end Walked

end HorizonQp
