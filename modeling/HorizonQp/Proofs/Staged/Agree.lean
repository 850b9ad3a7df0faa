/-
  HorizonQp.Proofs.Staged.Agree — the stages and the dense problem have the same residuals.

  Two computations, one that walks the stages and one over the matrices of the flattened
  problem, agree when the arithmetic is exact: stationarity, equations and gap are equal, and
  the rows of the inequalities and of complementarity are equal once they are rearranged side
  by side (`residuals_flatten`). A bound problem without slacks has such stages, which are its
  views (`Qp.stages?_eq_some`), and both updates answer (`Qp.update_flatten`).
-/

import HorizonQp.Proofs.Staged.Walk
import HorizonQp.Proofs.Exact.Rational
import HorizonQp.Proofs.Linear.Entries
import HorizonQp.Proofs.Qp.Reachable

namespace HorizonQp

open Linear (Matrix axpby mul mulDot)
open Finset (range)

namespace Flat

/-! ## The dense problem, entry by entry -/

section Entries

variable {K : Type} [ExactField K] {stages : List (Stage K)} {it : Iterate K}

/-- The symmetric matrices of the stages make up that of the dense problem. -/
theorem hessian_eq {i j : Nat} (hi : i < (dims stages).nv) (hj : j < (dims stages).nv) :
    (flatten stages).hessian i j = blocks Stage.nux Stage.nux Stage.hessian stages i j := by
  have hlower (A : Matrix K) (i j : Nat) :
      (Linear.View.symmetric .lower).entry A i j = if j ≤ i then A.entry i j else A.entry j i := by
    simp only [Linear.View.entry, Linear.View.index, Linear.View.source, Matrix.entry]
    split <;> rfl
  have hstage : (Stage.hessian : Stage K → Nat → Nat → K) =
      fun s i j => if j ≤ i then s.RSQrq.entry i j else s.RSQrq.entry j i := by
    funext s i j
    exact hlower ..
  rw [DenseQp.hessian, hlower, hstage, ← blocks_reflected]
  show (if j ≤ i then (Matrix.ofFn _ _ _).entry i j else (Matrix.ofFn _ _ _).entry j i) = _
  rw [Matrix.ofFn_entry _ hi hj, Matrix.ofFn_entry _ hj hi]

theorem A_entry {r j : Nat} (hr : r < (dims stages).ne) (hj : j < (dims stages).nv) :
    (flatten stages).A.entry r j = dynamics stages r j :=
  Matrix.ofFn_entry _ hr hj

theorem Ct_entry {i k : Nat} (hi : i < (dims stages).nv) (hk : k < (dims stages).ng) :
    (flatten stages).Ct.entry i k = blocks Stage.nux Stage.ng (fun s => s.DCt.entry) stages i k :=
  Matrix.ofFn_entry _ hi hk

theorem constraint_eq (z : List K) (which : Side) {k : Nat} (hk : k < which.length (dims stages)) :
    (flatten stages).constraint z which k = value stages z which k := by
  cases which with
  | lb | ub => rfl
  | lg | ug =>
    refine Finset.sum_congr rfl fun i hi => ?_
    rw [Ct_entry (Finset.mem_range.mp hi) hk]

theorem net_eq {lam : List K} (hlam : lam.length = total (stages.map Stage.nc)) (low up : Side) {k : Nat}
    (hlow : k < low.length (dims stages)) (hup : k < up.length (dims stages)) :
    (flatten stages).net (pack stages lam) low up k = net stages lam low up k := by
  show (pack stages lam).getD (low.offset (dims stages) + k) 0 - (pack stages lam).getD (up.offset (dims stages) + k) 0 = _
  rw [pack_entry hlam low hlow, pack_entry hlam up hup]
  rfl

end Entries

/-! ## Agreement -/

variable {K : Type} [ExactField K] [DecidableEq K] {stages : List (Stage K)} {it : Iterate K}

/-- Residuals with the inequality rows rearranged side by side. -/
def packResiduals {α : Type} (stages : List (Stage α)) (r : Residuals α) : Residuals α :=
  { r with
    inequalities := pack stages r.inequalities
    complementarity := pack stages r.complementarity }

section Parts

variable (h : Ready stages it)
include h

theorem stationarity_flatten :
    (flatten stages).stationarity (flattenIterate stages it) = (stageResiduals stages it).stationarity := by
  have hfit := h.flatten_fits
  rcases stationarity_entries none 0 h fun _ _ => nofun with ⟨hlen, hentry⟩
  have hdense : ∀ i < (dims stages).nv,
      ((flatten stages).stationarity (flattenIterate stages it)).getD i 0 = stationary stages it i := by
    intro i hi
    rw [DenseQp.stationarity_entry hfit hi, stationary]
    congr 1
    · congr 1
      · congr 1
        · congr 1
          refine Finset.sum_congr rfl fun j hj => ?_
          rw [hessian_eq hi (Finset.mem_range.mp hj)]
          rfl
        · refine Finset.sum_congr rfl fun r hr => ?_
          rw [A_entry (Finset.mem_range.mp hr) hi]
          rfl
      · refine Finset.sum_congr rfl fun k hk => ?_
        have hk := Finset.mem_range.mp hk
        rw [← net_eq h.sized.lam .lb .ub hk hk]
        rfl
    · refine Finset.sum_congr rfl fun k hk => ?_
      have hk := Finset.mem_range.mp hk
      rw [Ct_entry hi hk, ← net_eq h.sized.lam .lg .ug hk hk]
      rfl
  show _ = (residualsFrom stages it none 0).stationarity
  refine Linear.ext_getD 0 ((DenseQp.length_stationarity hfit).trans hlen.symm) fun i hi => ?_
  have hi : i < (dims stages).nv := (DenseQp.length_stationarity hfit) ▸ hi
  rw [hdense i hi, hentry i hi]
  exact (sub_zero _).symm

theorem equations_flatten :
    (flatten stages).equations (flattenIterate stages it) = (stageResiduals stages it).equations := by
  have hfit := h.flatten_fits
  rcases equations_entries none 0 h with ⟨hlen, hentry⟩
  show _ = (residualsFrom stages it none 0).equations
  refine Linear.ext_getD 0 ((DenseQp.length_equations hfit).trans hlen.symm) fun r hr => ?_
  have hr : r < (dims stages).ne := (DenseQp.length_equations hfit) ▸ hr
  rw [DenseQp.equations_entry hfit hr, hentry r hr]
  congr 1
  refine Finset.sum_congr rfl fun j hj => ?_
  rw [A_entry hr (Finset.mem_range.mp hj)]
  rfl

theorem inequalities_flatten :
    (flatten stages).inequalities (flattenIterate stages it) = pack stages (stageResiduals stages it).inequalities := by
  have hfit := h.flatten_fits
  rcases inequalities_entries none 0 h with ⟨hlen, hentry⟩
  have hdense := DenseQp.length_inequalities hfit
  show _ = pack stages (residualsFrom stages it none 0).inequalities
  refine Linear.ext_getD 0 (hdense.trans (h.counted.nc_eq.trans (length_pack hlen).symm)) fun i hi => ?_
  rcases Side.exists_row (dims stages) (hdense ▸ hi) with ⟨which, k, hk, rfl⟩
  rw [pack_entry hlen which hk, hentry which k hk, ← pack_entry h.length_d which hk, ← pack_entry h.sized.t which hk,
    ← constraint_eq _ which hk]
  have hrow := DenseQp.inequalities_entry hfit which hk
  rw [DenseQp.bound_eq hfit which hk] at hrow
  exact hrow

theorem complementarity_flatten :
    (flatten stages).complementarity (flattenIterate stages it) =
      pack stages (stageResiduals stages it).complementarity := by
  show axpby (-1) (pack stages (stages.flatMap Stage.m)) 1 (mul (pack stages it.lam) (pack stages it.t)) =
    pack stages (residualsFrom stages it none 0).complementarity
  rw [complementarity_eq h.linked h.sized, axpby, axpby, pack_zipWith _ h.length_m (length_products h.sized), mul, mul,
    pack_zipWith _ h.sized.lam h.sized.t]

/-- Rearranging the rows does not change the sum of their products. -/
theorem gap_flatten : (flatten stages).gap (flattenIterate stages it) = (stageResiduals stages it).mu := by
  have hsum : (mulDot (pack stages it.lam) (pack stages it.t)).2 = (mul it.lam it.t).sum := by
    show Linear.sum (mul (pack stages it.lam) (pack stages it.t)) = _
    rw [Linear.sum_eq, mul, ← pack_zipWith _ h.sized.lam h.sized.t]
    exact (pack_perm h.rigid (length_products h.sized)).sum_eq
  show (if 0 < (dims stages).nc then _ / ((dims stages).nc : K) else 0) =
    if 0 < total (stages.map Stage.nc) then (residualsFrom stages it none 0).mu / (total (stages.map Stage.nc) : K) else 0
  rw [h.counted.nc_eq, rows_dims h.rigid, mu_eq h.sized, zero_add]
  show (if _ then (mulDot (pack stages it.lam) (pack stages it.t)).2 / _ else 0) = _
  rw [hsum]

/-- The dense problem has the residuals of the stages, its rows side by side. -/
theorem residuals_flatten :
    (flatten stages).residuals (flattenIterate stages it) = packResiduals stages (stageResiduals stages it) := by
  rw [DenseQp.residuals, stationarity_flatten h, equations_flatten h, inequalities_flatten h, complementarity_flatten h,
    gap_flatten h]
  rfl

end Parts

end Flat

/-! ## Updates -/

namespace Qp

theorem Bound.ready {α : Type} [Stored α] [FixedWidth α] {q : Qp α} (h : q.Bound) (hns : ∀ i ≤ q.dims.N, q.dims.nsAt i = 0)
    {it : Iterate α} (hit : q.Fits it) : Flat.Ready q.stages it := by
  have hsuits := h.suits hit
  have hrigid : Flat.Rigid q.stages := by
    intro s hs
    rcases mem_stages.mp hs with ⟨i, hi, rfl⟩
    exact hns i hi
  exact ⟨(Flat.rows_dims hrigid).trans_lt h.total_nc_lt, hsuits.linked, hrigid, hsuits.idxb, hsuits.sized⟩

variable {K : Type} [ExactField K] [DecidableEq K] [Stored K] [FixedWidth K]

/-- For a problem without slacks whose bounded variables exist, and an iterate of the lengths
    that its dimensions imply, both updates answer. The stages and the dense problem have the
    same stationarity, equations and gap, and the same rows up to the rearrangement. -/
theorem update_flatten {q : Qp K} (h : q.Reachable) (hns : ∀ i ≤ q.dims.N, q.dims.ns[i]? = some 0)
    (hidxb : ∀ i ≤ q.dims.N, ∀ idx nux, q.indices? .idxb i = some idx → q.dims.nux? i = some nux → ∀ k ∈ idx, k < nux)
    {it : Iterate K} (hux : q.dims.nvt? = some it.ux.length) (hpi : q.dims.net? = some it.pi.length)
    (hlam : q.dims.nct? = some it.lam.length) (ht : q.dims.nct? = some it.t.length) :
    ∃ stages, q.stages? = some stages ∧
      ∀ (w : Workspace K) (w' : DenseWorkspace K), w.dims = q.dims → w'.dims = Flat.dims stages →
        ∃ r r' : Residuals K,
          w.update q it = .ok { w with residuals := r } ∧
          w'.update (flatten stages) (flattenIterate stages it) = .ok { w' with residuals := r' } ∧
          r'.stationarity = r.stationarity ∧ r'.equations = r.equations ∧ r'.mu = r.mu ∧
          r'.inequalities = Flat.pack stages r.inequalities ∧
          r'.complementarity = Flat.pack stages r.complementarity ∧
          r'.inequalities.Perm r.inequalities ∧ r'.complementarity.Perm r.complementarity := by
  have hb := h.bound
  have s := hb.spans
  have hns (i : Nat) (hi : i ≤ q.dims.N) : q.dims.nsAt i = 0 :=
    Option.some.inj ((s.ns_get hi).symm.trans (hns i hi))
  have hfits : q.Fits it :=
    { ux := hux
      pi := hpi
      lam := hlam
      t := ht
      idxb := by
        intro i hi
        have hlt : i < IdxBlock.idxb.region.count q.dims.N := Nat.lt_succ_of_le hi
        exact hidxb i hi _ _ ((hb.indices?_eq .idxb i).trans (if_pos hlt)) (hb.nux_get hi)
      idxs := by
        intro i hi k hk
        have hlen : (q.words .idxs i).length = 0 := (hb.stageAt_shaped hi).idxs.trans (hns i hi)
        rw [List.eq_nil_of_length_eq_zero hlen] at hk
        cases hk }
  have hready := hb.ready hns hfits
  refine ⟨q.stages, hb.stages?_eq, fun w w' hw hw' => ?_⟩
  have hdims : Workspace.checkDims w.dims q.dims = .ok () := by rw [hw]; exact Workspace.checkDims_self hb.toLaid
  refine ⟨stageResiduals q.stages it, (flatten q.stages).residuals (flattenIterate q.stages it),
    (Workspace.update_eq_ok hb.toLaid).mpr ⟨hdims, hfits, rfl⟩,
    DenseWorkspace.update_eq_ok.mpr ⟨hw', hready.flatten_fits, rfl⟩, ?_⟩
  rw [Flat.residuals_flatten hready]
  refine ⟨rfl, rfl, rfl, rfl, rfl, ?_, ?_⟩
  · exact Flat.pack_perm hready.rigid (Flat.inequalities_entries none 0 hready).1
  · exact Flat.pack_perm hready.rigid (Flat.length_complementarity none 0 hready)

/-- Both bounds of the first stage on its state. -/
theorem update_flatten_same_bound : ∃ (q : Qp ℚ) (stages : List (Stage ℚ)) (r r' : Residuals ℚ),
    q.dims = ⟨1, [1, 1], [1, 0], [2, 0], [1, 0], [1, 0], [1, 0], [0, 0]⟩ ∧ q.indices? .idxb 0 = some [1, 1] ∧
    q.stages? = some stages ∧
    Workspace.update ⟨q.dims, ⟨[], [], [], [], 0⟩⟩ q ⟨[1, 2, 3], [4], [1, 2, 3, 4, 5, 6], [6, 5, 4, 3, 2, 1]⟩ =
      .ok ⟨q.dims, r⟩ ∧
    DenseWorkspace.update ⟨Flat.dims stages, ⟨[], [], [], [], 0⟩⟩ (flatten stages)
      (flattenIterate stages ⟨[1, 2, 3], [4], [1, 2, 3, 4, 5, 6], [6, 5, 4, 3, 2, 1]⟩) = .ok ⟨Flat.dims stages, r'⟩ ∧
    r'.stationarity = r.stationarity ∧ r'.inequalities = Flat.pack stages r.inequalities := by
  have hd : Dims.Consistent ⟨1, [1, 1], [1, 0], [2, 0], [1, 0], [1, 0], [1, 0], [0, 0]⟩ := by decide
  rcases @bind_filled ℚ _ _ hd _ rfl with ⟨q₀, hb, hq₀, -⟩
  have hr₀ : q₀.Reachable := .bind hd hb
  -- the indices of the first stage, written over its view
  have hwrote : ∃ q, q₀.Wrote q IdxBlock.idxb.region 0 ([1, 1].flatMap Word.encode) :=
    hr₀.bound.exists_wrote (by rw [hq₀]; decide) (by rw [bytesOf, hq₀]; rfl)
  rcases hwrote with ⟨q, hw⟩
  have hcall : q₀.writeIndices? .idxb 0 [1, 1] = some q :=
    hr₀.bound.writeIndices?_eq_some.mpr ⟨by rw [hq₀]; rfl, hw⟩
  have hafter : (Call.writeIndices .idxb 0 [1, 1]).after q₀ = q := Call.after_of_ok (Attempt.require_eq_ok.mpr hcall)
  have hr : q.Reachable := hafter ▸ .call _ hr₀
  have hdims : q.dims = ⟨1, [1, 1], [1, 0], [2, 0], [1, 0], [1, 0], [1, 0], [0, 0]⟩ := hw.dims.trans hq₀
  have hfirst : q.indices? .idxb 0 = some [1, 1] := by
    rw [hr.bound.indices?_eq, if_pos (by rw [hdims]; decide), hw.words_self rfl (by rw [hq₀]; rfl),
      Layout.map_decode_encode (by decide)]
  have hidxb : ∀ i ≤ q.dims.N, ∀ idx nux, q.indices? .idxb i = some idx → q.dims.nux? i = some nux →
      ∀ k ∈ idx, k < nux := by
    intro i hi idx nux hidx hnux k hk
    rw [hdims] at hi hnux
    rcases Nat.le_one_iff_eq_zero_or_eq_one.mp hi with rfl | rfl
    · rw [hfirst] at hidx
      cases hidx
      cases hnux
      revert k
      decide
    · -- the last stage has no bounds
      have hlast : 1 < IdxBlock.idxb.region.count q.dims.N := by rw [hdims]; decide
      have hlen := hr.bound.length_words IdxBlock.idxb.isFloat_region hlast
      rw [hr.bound.indices?_eq, if_pos hlast] at hidx
      cases hidx
      rw [hdims] at hlen
      rw [List.eq_nil_of_length_eq_zero hlen] at hk
      cases hk
  rcases @update_flatten ℚ _ _ _ _ q hr (by rw [hdims]; decide) hidxb
    ⟨[1, 2, 3], [4], [1, 2, 3, 4, 5, 6], [6, 5, 4, 3, 2, 1]⟩ (by rw [hdims]; rfl) (by rw [hdims]; rfl)
    (by rw [hdims]; rfl) (by rw [hdims]; rfl) with ⟨stages, hstages, hupdate⟩
  rcases hupdate ⟨q.dims, ⟨[], [], [], [], 0⟩⟩ ⟨Flat.dims stages, ⟨[], [], [], [], 0⟩⟩ rfl rfl with
    ⟨r, r', hw, hw', hg, -, -, hineq, -⟩
  exact ⟨q, stages, r, r', hdims, hfirst, hstages, hw, hw', hg, hineq⟩

end Qp

end HorizonQp
