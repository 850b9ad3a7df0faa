/-
  HorizonQp.Proofs.Staged.Residuals — the residuals of a problem, entry by entry.

  Over a field an update that answers leaves, at every stage, the sums that
  `HorizonQp.Residual.Staged` lists (`Stage.Formulas`): of the fields that a user reads from
  the problem, of the part of the iterate that belongs to the stage, of the multipliers of the
  step into it and of the states of the next stage (`update_formulas`). The matrices and index
  arrays of a stage are the problem's views at that stage (`stages?_eq_some`). The upper bounds
  in the sums are those that a user reads, though they lie negated in the block.
-/

import HorizonQp.Proofs.Exact.Rational
import HorizonQp.Proofs.Qp.Fields
import HorizonQp.Proofs.Staged.Parts

namespace HorizonQp

open Linear (mul)
open Finset (range)

/-! ## The formulas of a stage -/

/-- The residuals `r` of a stage at its part `it` of an iterate: `fields` are its vectors,
    `entering` the multipliers of the step into it, and `next` the states of the next stage. -/
structure Stage.Formulas {K : Type} [ExactField K] (s : Stage K) (fields : Field → List K) (it : Iterate K)
    (entering : Option (List K)) (next : List K) (r : Residuals K) : Prop where
  inputsStates : ∀ i < s.nux, r.stationarity.getD i 0 =
    ∑ j ∈ range s.nux, (if j ≤ i then s.RSQrq.entry i j else s.RSQrq.entry j i) * it.ux.getD j 0
      + (fields .r ++ fields .q).getD i 0 + s.leaving it.pi i - entered s.nu entering i
      + (∑ k ∈ range s.nb, if s.idxb.getD k 0 = i then it.lam.getD k 0 - it.lam.getD (s.rows + k) 0 else 0)
      + ∑ k ∈ range s.ng, s.DCt.entry i k * (it.lam.getD (s.nb + k) 0 - it.lam.getD (s.rows + (s.nb + k)) 0)
  lowerSlacks : ∀ j < s.ns, r.stationarity.getD (s.nux + j) 0 =
    (fields .Zl).getD j 0 * it.ux.getD (s.nux + j) 0 + (fields .zl).getD j 0
      + it.lam.getD (s.idxs.getD j 0) 0 + it.lam.getD (2 * s.rows + j) 0
  upperSlacks : ∀ j < s.ns, r.stationarity.getD (s.nux + s.ns + j) 0 =
    (fields .Zu).getD j 0 * it.ux.getD (s.nux + s.ns + j) 0 + (fields .zu).getD j 0
      + it.lam.getD (s.rows + s.idxs.getD j 0) 0 + it.lam.getD (2 * s.rows + s.ns + j) 0
  equations : ∀ step ∈ s.step, ∀ k < step.b.length, r.equations.getD k 0 =
    next.getD k 0 - ∑ j ∈ range s.nu, step.BAbt.entry j k * it.ux.getD j 0
      - ∑ j ∈ range s.nx, step.BAbt.entry (s.nu + j) k * it.ux.getD (s.nu + j) 0 - (fields .b).getD k 0
  lower : ∀ k < s.rows, r.inequalities.getD k 0 =
    -(s.constraint it.ux k + ∑ j ∈ range s.ns, if s.idxs.getD j 0 = k then it.ux.getD (s.nux + j) 0 else 0)
      + (fields .lb ++ fields .lg).getD k 0 + it.t.getD k 0
  upper : ∀ k < s.rows, r.inequalities.getD (s.rows + k) 0 =
    -(s.constraint it.ux k - ∑ j ∈ range s.ns, if s.idxs.getD j 0 = k then it.ux.getD (s.nux + s.ns + j) 0 else 0)
      + (fields .ub ++ fields .ug).getD k 0 - it.t.getD (s.rows + k) 0
  lowerOwn : ∀ j < s.ns, r.inequalities.getD (2 * s.rows + j) 0 =
    -it.ux.getD (s.nux + j) 0 + (fields .ls).getD j 0 + it.t.getD (2 * s.rows + j) 0
  upperOwn : ∀ j < s.ns, r.inequalities.getD (2 * s.rows + s.ns + j) 0 =
    -it.ux.getD (s.nux + s.ns + j) 0 + (fields .us).getD j 0 + it.t.getD (2 * s.rows + s.ns + j) 0
  complementarity : ∀ k < s.nc, r.complementarity.getD k 0 = it.lam.getD k 0 * it.t.getD k 0 - s.m.getD k 0

section Stages

variable {α : Type}

/-- The states of stage `i`. -/
def statesAt (stages : List (Stage α)) (ux : List α) (i : Nat) : List α :=
  (stages[i]?).elim [] fun s => Stage.run (part Stage.nv stages i ux) s.nu s.nx

end Stages

namespace Stage

variable {K : Type} [ExactField K]

theorem hessian_eq (s : Stage K) (i j : Nat) :
    s.hessian i j = if j ≤ i then s.RSQrq.entry i j else s.RSQrq.entry j i := by
  simp only [hessian, Linear.View.entry, Linear.View.index, Linear.View.source]
  split <;> rfl

/-- The vectors of a stage, as its fields. -/
structure HasFields (s : Stage K) (fields : Field → List K) : Prop where
  costs : ∀ i < s.nux, s.rqz.getD i 0 = (fields .r ++ fields .q).getD i 0
  lowerCosts : ∀ j < s.ns, s.rqz.getD (s.nux + j) 0 = (fields .zl).getD j 0
  upperCosts : ∀ j < s.ns, s.rqz.getD (s.nux + s.ns + j) 0 = (fields .zu).getD j 0
  lowerWeights : ∀ j < s.ns, s.Z.getD j 0 = (fields .Zl).getD j 0
  upperWeights : ∀ j < s.ns, s.Z.getD (s.ns + j) 0 = (fields .Zu).getD j 0
  lower : ∀ k < s.rows, s.d.getD k 0 = (fields .lb ++ fields .lg).getD k 0
  upper : ∀ k < s.rows, -s.d.getD (s.rows + k) 0 = (fields .ub ++ fields .ug).getD k 0
  lowerOwn : ∀ j < s.ns, s.d.getD (2 * s.rows + j) 0 = (fields .ls).getD j 0
  upperOwn : ∀ j < s.ns, s.d.getD (2 * s.rows + s.ns + j) 0 = (fields .us).getD j 0
  equations : ∀ step ∈ s.step, step.b = fields .b

variable [DecidableEq K] {s : Stage K} {fields : Field → List K} {it : Iterate K} {entering : Option (List K)}
  {after : List K}

/-- What the kernels of a stage make of its part is what the formulas say. -/
theorem Fed.formulas (h : s.Fed it entering after) (hf : s.HasFields fields) {next : List K}
    (hnext : ∀ step ∈ s.step, ∀ k < step.b.length, after.getD (step.nu + k) 0 = next.getD k 0) (mu : K) :
    s.Formulas fields it entering next (s.residuals it entering after mu) := by
  rcases h.stationarity_entries mu with ⟨inputsStates, low, up⟩
  rcases inequalities_entries h.shaped h.idxb h.ux h.t with ⟨lower, upper, lowerOwn, upperOwn⟩
  constructor
  case inputsStates =>
    intro i hi
    rw [inputsStates i hi, hf.costs i hi]
    simp only [hessian_eq, net]
  case lowerSlacks =>
    intro j hj
    rw [low j hj, hf.lowerWeights j hj, hf.lowerCosts j hj]
  case upperSlacks =>
    intro j hj
    rw [up j hj, hf.upperWeights j hj, hf.upperCosts j hj]
  case equations =>
    intro step hst k hk
    have heq : (s.residuals it entering after mu).equations = s.equations step it.ux after := by
      simp only [residuals, show s.step = some step from hst]
    rw [heq, equations_entry h.shaped hst h.ux (h.after step hst) hk, hnext step hst k hk, hf.equations step hst, nux, Finset.sum_range_add]
    ring
  case lower =>
    intro k hk
    rw [residuals, lower k hk, hf.lower k hk]
    rfl
  case upper =>
    intro k hk
    rw [residuals, upper k hk, ← hf.upper k hk, moved]
    ring
  case lowerOwn =>
    intro j hj
    rw [residuals, lowerOwn j hj, hf.lowerOwn j hj]
  case upperOwn =>
    intro j hj
    rw [residuals, upperOwn j hj, hf.upperOwn j hj]
  case complementarity =>
    intro k hk
    have hmul : (mul it.lam it.t).length = s.nc := (Linear.length_mul (h.lam.trans h.t.symm)).trans h.t
    rw [residuals, Linear.axpby_entry _ _ (h.shaped.m.trans hmul.symm), Linear.mul_entry (h.lam.trans h.t.symm)]
    ring

end Stage

/-! ## The fields of a stage -/

namespace Qp

variable {K : Type} [ExactField K] [Stored K]

/-- The vector field `f` of stage `i`. -/
def fieldAt (q : Qp K) (i : Nat) (f : Field) : List K :=
  (q.dims.vecSlotAt i f).held (((q.numbers (q.dims.vecSlotAt i f).block.region i).drop
    (q.dims.vecSlotAt i f).offset).take (q.dims.vecSlotAt i f).len)

namespace Bound

variable {q : Qp K} (h : q.Bound) {i : Nat}
include h

theorem length_fieldAt {f : Field} (hk : f.kind = .vector) (hi : i < f.count q.dims.N) :
    (q.fieldAt i f).length = (q.dims.vecSlotAt i f).len := by
  have hj := hi
  rw [← Dims.vecSlotAt_count (d := q.dims) (i := i) hk] at hj
  have hl := h.length_numbers (VecBlock.isFloat_region _) hj
  have hin := Dims.vecSlotAt_inside h.dims (Dims.stage_le hi) hk
  rw [VecBlock.entries_region] at hl
  rw [fieldAt, VecSlot.length_held, List.length_take, List.length_drop, hl]
  omega

theorem getVector_fieldAt {f : Field} (hk : f.kind = .vector) (hi : i < f.count q.dims.N) :
    q.getVector f i (q.fieldAt i f).length = .ok (q.fieldAt i f) :=
  h.getVector_run hk hi (h.length_fieldAt hk hi).symm

/-- An entry of a field is that of its vector, with the sign it is meant with. -/
theorem fieldAt_entry {f : Field} (hf : f.kind = .vector) (hi : i < f.count q.dims.N) {block : VecBlock}
    {offset len : Nat} {negated : Bool} {augmented : Option (MatBlock × Nat)}
    (hslot : q.dims.vecSlotAt i f = ⟨block, offset, len, negated, augmented⟩) {k : Nat} (hk : k < len) :
    (q.fieldAt i f).getD k 0 =
      if negated then -(q.numbers block.region i).getD (offset + k) 0 else (q.numbers block.region i).getD (offset + k) 0 := by
  have hlen := h.length_fieldAt hf hi
  have hget : (((q.numbers block.region i).drop offset).take len).getD k 0 =
      (q.numbers block.region i).getD (offset + k) 0 := (Linear.getD_take _ _ hk).trans (Linear.getD_drop ..)
  rw [fieldAt, VecSlot.length_held, hslot] at hlen
  rw [fieldAt, hslot]
  cases negated with
  | false => exact hget
  | true => exact (Linear.getD_map_lt (- ·) 0 0 (hk.trans_eq hlen.symm)).trans (congrArg (- ·) hget)

/-- Two fields that lie one behind the other are one run of their vector. -/
theorem fieldAt_append {f g : Field} (hf : f.kind = .vector) (hg : g.kind = .vector) (hi : i < f.count q.dims.N)
    (hi' : i < g.count q.dims.N) {block : VecBlock} {first second lenf leng : Nat} {negated : Bool}
    {augf augg : Option (MatBlock × Nat)} (hslotf : q.dims.vecSlotAt i f = ⟨block, first, lenf, negated, augf⟩)
    (hslotg : q.dims.vecSlotAt i g = ⟨block, second, leng, negated, augg⟩) (hnext : second = first + lenf) {k : Nat}
    (hk : k < lenf + leng) :
    (q.fieldAt i f ++ q.fieldAt i g).getD k 0 =
      if negated then -(q.numbers block.region i).getD (first + k) 0 else (q.numbers block.region i).getD (first + k) 0 := by
  have hlen : (q.fieldAt i f).length = lenf := (h.length_fieldAt hf hi).trans (congrArg VecSlot.len hslotf)
  rw [Linear.getD_append_ite, hlen]
  split
  case isTrue hlt => exact h.fieldAt_entry hf hi hslotf hlt
  case isFalse hge =>
    rw [h.fieldAt_entry hg hi' hslotg (show k - lenf < leng by omega), show second + (k - lenf) = first + k by omega]

theorem hasFields (hi : i ≤ q.dims.N) : (q.stageAt i).HasFields (q.fieldAt i) := by
  have hlt : i < q.dims.N + 1 := Nat.lt_succ_of_le hi
  have hrows : (q.stageAt i).rows = q.dims.nbAt i + q.dims.ngAt i := rfl
  constructor
  case costs =>
    intro k hk
    rw [h.fieldAt_append (f := .r) (g := .q) rfl rfl hlt hlt rfl rfl (Nat.zero_add _).symm hk, Nat.zero_add]
    rfl
  case lowerCosts => exact fun j hj => (h.fieldAt_entry (f := .zl) rfl hlt rfl hj).symm
  case upperCosts => exact fun j hj => (h.fieldAt_entry (f := .zu) rfl hlt rfl hj).symm
  case lowerWeights =>
    intro j hj
    rw [h.fieldAt_entry (f := .Zl) rfl hlt rfl hj, Nat.zero_add]
    rfl
  case upperWeights => exact fun j hj => (h.fieldAt_entry (f := .Zu) rfl hlt rfl hj).symm
  case lower =>
    intro k hk
    rw [h.fieldAt_append (f := .lb) (g := .lg) rfl rfl hlt hlt rfl rfl (Nat.zero_add _).symm hk, Nat.zero_add]
    rfl
  case upper =>
    intro k hk
    exact (h.fieldAt_append (f := .ub) (g := .ug) rfl rfl hlt hlt rfl rfl (by omega) hk).symm
  case lowerOwn =>
    intro j hj
    rw [h.fieldAt_entry (f := .ls) rfl hlt rfl hj, show 2 * q.dims.nbAt i + 2 * q.dims.ngAt i = 2 * (q.stageAt i).rows by omega]
    rfl
  case upperOwn =>
    intro j hj
    rw [h.fieldAt_entry (f := .us) rfl hlt rfl hj,
      show 2 * q.dims.nbAt i + 2 * q.dims.ngAt i = 2 * (q.stageAt i).rows by omega]
    rfl
  case equations =>
    intro step hst
    have hst : q.stepAt i = some step := hst
    unfold stepAt at hst
    split at hst
    · rename_i hN
      cases hst
      have hl : (q.numbers .b i).length = q.dims.nxAt (i + 1) := h.length_numbers rfl hN
      exact (List.take_of_length_le (Nat.le_of_eq hl)).symm
    · cases hst

end Bound

end Qp

/-! ## The stages of a problem -/

section Stages

variable {α : Type} {stages : List (Stage α)} {i : Nat} {s : Stage α}

/-- The step of a stage leads to the stage behind it. -/
theorem next_of_linked (h : Linked stages) (hi : stages[i]? = some s) {step : Step α} (hst : s.step = some step) :
    ∃ next, stages[i + 1]? = some next ∧ step.nu = next.nu ∧ step.b.length = next.nx := by
  induction stages generalizing i with
  | nil => cases hi
  | cons s' stages ih =>
    cases i with
    | succ i => exact ih h.2.2 hi
    | zero =>
      cases hi
      cases stages with
      | nil => cases (show s.step = none from h.2.1).symm.trans hst
      | cons next stages =>
        rcases h.2.1 with ⟨step', hst', hnu, hnx⟩
        cases hst'.symm.trans hst
        exact ⟨next, rfl, hnu, hnx⟩

/-- Where the variables behind a stage have the states of the next one. -/
theorem afterAt_states (h : Linked stages) (hi : stages[i]? = some s) {step : Step α} (hst : s.step = some step)
    (ux : List α) {k : Nat} (hk : k < step.b.length) (a : α) :
    (afterAt stages ux i).getD (step.nu + k) a = (statesAt stages ux (i + 1)).getD k a := by
  rcases next_of_linked h hi hst with ⟨next, hnext, hnu, hnx⟩
  have hin : next.nu + k < next.nv := by rw [Stage.nv, Stage.nux]; omega
  rw [afterAt, statesAt, hnext, Option.elim_some, Stage.run_entry _ (by rwa [← hnx]), part, hnext, Option.elim_some,
    Stage.run_entry _ hin, Linear.getD_drop, hnu]

end Stages

namespace Qp

theorem getElem?_stages {α : Type} [Stored α] {q : Qp α} {i : Nat} {s : Stage α} :
    q.stages[i]? = some s ↔ i ≤ q.dims.N ∧ q.stageAt i = s := by
  simp only [stages, Dims.stages, List.getElem?_map, Option.map_eq_some_iff, List.getElem?_eq_some_iff, List.length_range,
    List.getElem_range]
  constructor
  · rintro ⟨j, ⟨hj, rfl⟩, hs⟩
    exact ⟨Nat.le_of_lt_succ hj, hs⟩
  · rintro ⟨hi, hs⟩
    exact ⟨i, ⟨Nat.lt_succ_of_le hi, rfl⟩, hs⟩

variable {K : Type} [ExactField K] [DecidableEq K] [Stored K] [FixedWidth K]

/-- An update that answers leaves the residuals of the formulas at every stage, of the fields
    that a user reads there, and the mean of the products of multipliers and slacks. -/
theorem update_formulas {q : Qp K} (h : q.Reachable) {w w' : Workspace K} {it : Iterate K} (hu : w.update q it = .ok w') :
    ∃ stages, q.stages? = some stages ∧ stages.length = q.dims.N + 1 ∧
      w'.residuals.stationarity.length = total (stages.map Stage.nv) ∧
      w'.residuals.equations.length = total (stages.map Stage.ne) ∧
      w'.residuals.inequalities.length = total (stages.map Stage.nc) ∧
      w'.residuals.complementarity.length = total (stages.map Stage.nc) ∧
      (∀ i s, stages[i]? = some s → (s.step.isSome ↔ i < q.dims.N) ∧
        ∃ fields : Field → List K,
          (∀ f : Field, f.kind = .vector → i < f.count q.dims.N →
            q.getVector f i (fields f).length = .ok (fields f)) ∧
          s.Formulas fields (it.part stages i) (enteringAt stages it.pi none i) (statesAt stages it.ux (i + 1))
            (w'.residuals.part stages i)) ∧
      w'.residuals.mu =
        if 0 < total (stages.map Stage.nc) then (mul it.lam it.t).sum / (total (stages.map Stage.nc) : K) else 0 := by
  have hb := h.bound
  rcases (Workspace.update_eq_ok hb.toLaid).mp hu with ⟨-, hfits, rfl⟩
  have hsuits := hb.suits hfits
  have hfirst := enters_none q.stages
  rcases residualsFrom_covers hsuits hfirst 0 with ⟨hg, heq, hd, hm⟩
  refine ⟨q.stages, hb.stages?_eq, by rw [stages, List.length_map, List.length_range, Dims.stages], hg, heq, hd, hm, ?_, ?_⟩
  · intro i s hi
    rcases getElem?_stages.mp hi with ⟨hiN, rfl⟩
    refine ⟨?_, q.fieldAt i, fun f hk hf => hb.getVector_fieldAt hk hf, ?_⟩
    · show (q.stepAt i).isSome ↔ _
      unfold stepAt
      split <;> simp_all
    · have hpart : (stageResiduals q.stages it).part q.stages i =
          (q.stageAt i).residuals (it.part q.stages i) (enteringAt q.stages it.pi none i) (afterAt q.stages it.ux i)
            (stageResiduals q.stages it).mu :=
        congrArg (fun r : Residuals K => { r with mu := (stageResiduals q.stages it).mu })
          (residualsFrom_part hsuits hfirst hi 0)
      show (q.stageAt i).Formulas _ _ _ _ ((stageResiduals q.stages it).part q.stages i)
      rw [hpart]
      exact (hsuits.fed hfirst hi).formulas (hb.hasFields hiN)
        (fun step hst k hk => afterAt_states hsuits.linked hi hst it.ux hk 0) _
  · show (if 0 < total (q.stages.map Stage.nc) then (residualsFrom q.stages it none 0).mu / _ else 0) = _
    rw [mu_eq hsuits.sized, zero_add]

/-! ### Two bounds on one state, and two slacks on the first of them -/

/-- Rows and slacks that share their targets. -/
theorem exists_softened : ∃ q : Qp ℚ, q.Reachable ∧
    q.dims = ⟨1, [1, 1], [1, 0], [2, 0], [1, 0], [1, 0], [1, 0], [2, 0]⟩ ∧
    q.words .idxb 0 = [1, 1] ∧ q.words .idxs 0 = [0, 0] ∧ q.words .idxb 1 = [] ∧ q.words .idxs 1 = [] := by
  have hd : Dims.Consistent ⟨1, [1, 1], [1, 0], [2, 0], [1, 0], [1, 0], [1, 0], [2, 0]⟩ := by decide
  rcases @bind_filled ℚ _ _ hd _ rfl with ⟨q₀, hb₀, hq₀, -⟩
  have hr₀ : q₀.Reachable := .bind hd hb₀
  rcases hr₀.bound.exists_indices .idxb (i := 0) (by rw [hq₀]; decide) [1, 1] (by rw [hq₀]; rfl)
    (by decide) with ⟨q₁, hw₁, hq₁, hidxb, -⟩
  have hafter₁ : (Call.writeIndices .idxb 0 [1, 1]).after q₀ = q₁ := Call.after_of_ok (Attempt.require_eq_ok.mpr hw₁)
  have hr₁ : q₁.Reachable := hafter₁ ▸ .call _ hr₀
  rcases hr₁.bound.exists_indices .idxs (i := 0) (by rw [hq₁, hq₀]; decide) [0, 0]
    (by rw [hq₁, hq₀]; rfl) (by decide) with ⟨q, hw, hq, hidxs, hkept⟩
  have hafter : (Call.writeIndices .idxs 0 [0, 0]).after q₁ = q := Call.after_of_ok (Attempt.require_eq_ok.mpr hw)
  have hr : q.Reachable := hafter ▸ .call _ hr₁
  have hdims : q.dims = ⟨1, [1, 1], [1, 0], [2, 0], [1, 0], [1, 0], [1, 0], [2, 0]⟩ := hq.trans (hq₁.trans hq₀)
  have words (b : IdxBlock) {ns : List Nat} (h : q.indices? b 0 = some ns) : q.words b.region 0 = ns := by
    rw [hr.bound.indices?_eq, if_pos (by rw [hdims]; cases b <;> decide)] at h
    exact Option.some.inj h
  -- the last stage has no bounds and no slacks
  have hlast (b : IdxBlock) : q.words b.region 1 = [] := by
    have hcount : 1 < b.region.count q.dims.N := by rw [hdims]; cases b <;> decide
    refine List.eq_nil_of_length_eq_zero ((hr.bound.length_words b.isFloat_region hcount).trans ?_)
    rw [hdims]
    cases b <;> rfl
  exact ⟨q, hr, hdims, words .idxb ((hkept .idxb 0 (by decide)).trans hidxb), words .idxs hidxs, hlast .idxb, hlast .idxs⟩

/-- The indices of such a problem point inside, so it fits any iterate of the right lengths. -/
theorem fits_softened {q : Qp ℚ} (hdims : q.dims = ⟨1, [1, 1], [1, 0], [2, 0], [1, 0], [1, 0], [1, 0], [2, 0]⟩)
    (hidxb : q.words .idxb 0 = [1, 1]) (hidxs : q.words .idxs 0 = [0, 0]) (hlastb : q.words .idxb 1 = [])
    (hlasts : q.words .idxs 1 = []) {it : Iterate ℚ} (hux : it.ux.length = 7) (hpi : it.pi.length = 1)
    (hlam : it.lam.length = 10) (ht : it.t.length = 10) : q.Fits it where
  ux := by rw [hdims, hux]; rfl
  pi := by rw [hdims, hpi]; rfl
  lam := by rw [hdims, hlam]; rfl
  t := by rw [hdims, ht]; rfl
  idxb i hi := by
    rw [hdims] at hi ⊢
    rcases Nat.le_one_iff_eq_zero_or_eq_one.mp hi with rfl | rfl
    · rw [hidxb]
      decide
    · rw [hlastb]
      decide
  idxs i hi := by
    rw [hdims] at hi ⊢
    rcases Nat.le_one_iff_eq_zero_or_eq_one.mp hi with rfl | rfl
    · rw [hidxs]
      decide
    · rw [hlasts]
      decide

theorem update_formulas_softened : ∃ (q : Qp ℚ) (w : Workspace ℚ) (stages : List (Stage ℚ)) (s : Stage ℚ)
    (fields : Field → List ℚ),
    q.dims = ⟨1, [1, 1], [1, 0], [2, 0], [1, 0], [1, 0], [1, 0], [2, 0]⟩ ∧ q.stages? = some stages ∧
    Workspace.update ⟨q.dims, ⟨[], [], [], [], 0⟩⟩ q
      ⟨[1, 2, 3, 4, 5, 6, 7], [8], [1, 2, 3, 4, 5, 6, 7, 8, 9, 10], [1, 1, 1, 1, 1, 2, 2, 2, 2, 2]⟩ = .ok w ∧
    stages[0]? = some s ∧ s.idxb = [1, 1] ∧ s.idxs = [0, 0] ∧
    s.Formulas fields
      ⟨[1, 2, 3, 4, 5, 6], [8], [1, 2, 3, 4, 5, 6, 7, 8, 9, 10], [1, 1, 1, 1, 1, 2, 2, 2, 2, 2]⟩ none [7]
      (w.residuals.part stages 0) ∧
    w.residuals.mu = 19 / 2 := by
  rcases exists_softened with ⟨q, hr, hdims, hidxb, hidxs, hlastb, hlasts⟩
  have hu : Workspace.update ⟨q.dims, ⟨[], [], [], [], 0⟩⟩ q
      ⟨[1, 2, 3, 4, 5, 6, 7], [8], [1, 2, 3, 4, 5, 6, 7, 8, 9, 10], [1, 1, 1, 1, 1, 2, 2, 2, 2, 2]⟩ = .ok _ :=
    (Workspace.update_eq_ok hr.bound.toLaid).mpr ⟨Workspace.checkDims_self hr.bound.toLaid,
      fits_softened hdims hidxb hidxs hlastb hlasts rfl rfl rfl rfl, rfl⟩
  rcases update_formulas hr hu with ⟨stages, hstages, -, -, -, -, -, hat, hmu⟩
  cases hstages.symm.trans hr.bound.stages?_eq
  have hfirst : q.stages[0]? = some (q.stageAt 0) := getElem?_stages.mpr ⟨Nat.zero_le _, rfl⟩
  rcases hat 0 _ hfirst with ⟨-, fields, -, hformulas⟩
  refine ⟨q, _, q.stages, q.stageAt 0, fields, hdims, hstages, hu, hfirst, hidxb, hidxs, ?_, ?_⟩
  · have hpi : part Stage.ne q.stages 0 ([8] : List ℚ) = [8] := by
      have hb : (q.numbers .b 0).length = 1 := by
        rw [hr.bound.length_numbers rfl (by rw [hdims]; decide), hdims]
        rfl
      have hne : (q.stageAt 0).ne = 1 := by
        rw [Stage.ne, show (q.stageAt 0).step = some _ from if_pos (by rw [hdims]; decide)]
        exact hb
      rw [part, hfirst, Option.elim_some, hne]
      rfl
    rw [Iterate.part, hpi] at hformulas
    rcases q with ⟨dims, layout, block⟩
    cases hdims
    exact hformulas
  · have htotal : total (q.stages.map Stage.nc) = 10 := by
      have hnct := hr.bound.nct?_eq
      rw [hdims] at hnct
      exact (Option.some.inj hnct).symm
    rw [hmu, htotal]
    norm_num [mul]

end Qp

end HorizonQp
