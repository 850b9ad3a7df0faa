/-
  HorizonQp.Proofs.Staged.Walk — what the walk over the stages computes.

  The walk takes the parts of a stage off the front of every vector, so each of its results
  is by induction on the stages: what the first stage makes of its parts, and what the stages
  behind it make of the rest (`rest`). The results are those of the dense problem, except
  that the first stage also feels the step that leads into it (`stationarity_entries`).
-/

import HorizonQp.Proofs.Staged.Sides

namespace HorizonQp.Flat

open Linear (axpby mul)
open Finset (range)

variable {K : Type} [ExactField K] {s : Stage K} {stages : List (Stage K)} {it : Iterate K}

/-! ## Stationarity of the dense problem -/

/-- The difference of the multipliers of two sides of all stages. -/
def net (stages : List (Stage K)) (lam : List K) (low up : Side) (k : Nat) : K :=
  (side low stages lam).getD k 0 - (side up stages lam).getD k 0

/-- Entry `i` of the stationarity of the dense problem. -/
def stationary (stages : List (Stage K)) (it : Iterate K) (i : Nat) : K :=
  ∑ j ∈ range (dims stages).nv, blocks Stage.nux Stage.nux Stage.hessian stages i j * it.ux.getD j 0
    + (stages.flatMap Stage.rqz).getD i 0
    - ∑ r ∈ range (dims stages).ne, dynamics stages r i * it.pi.getD r 0
    + (∑ k ∈ range (dims stages).nb, if (bounded stages).getD k 0 = i then net stages it.lam .lb .ub k else 0)
    + ∑ k ∈ range (dims stages).ng,
        blocks Stage.nux Stage.ng (fun s => s.DCt.entry) stages i k * net stages it.lam .lg .ug k

section Multipliers

variable {lam : List K} (hlam : s.nc ≤ lam.length)
include hlam

theorem net_bounds_front {k : Nat} (hk : k < s.nb) :
    net (s :: stages) lam .lb .ub k = s.net (lam.take s.nc) k := by
  rw [net, side_front hlam .lb hk, side_front hlam .ub hk, Stage.net]
  congr 2
  exact Nat.zero_add k

theorem net_general_front {k : Nat} (hk : k < s.ng) :
    net (s :: stages) lam .lg .ug k = s.net (lam.take s.nc) (s.nb + k) := by
  have hoff : 2 * s.nb + s.ng + k = s.rows + (s.nb + k) := by rw [Stage.rows]; omega
  rw [net, side_front hlam .lg hk, side_front hlam .ug hk, Stage.net, ← hoff]
  rfl

theorem net_back (low up : Side) (hs : low.length s.dims = up.length s.dims) (k : Nat) :
    net (s :: stages) lam low up (low.length s.dims + k) = net stages (lam.drop s.nc) low up k := by
  rw [net, side_back hlam low]
  rw [hs, side_back hlam up]
  rfl

end Multipliers

section Coordinates

variable (h : Ready (s :: stages) it)
include h

theorem stationary_front {i : Nat} (hi : i < s.nux) :
    stationary (s :: stages) it i =
      ∑ j ∈ range s.nux, s.hessian i j * (it.ux.take s.nv).getD j 0 + s.rqz.getD i 0
        + s.leaving (it.pi.take s.ne) i
        + (∑ k ∈ range s.nb, if s.idxb.getD k 0 = i then s.net (it.lam.take s.nc) k else 0)
        + ∑ k ∈ range s.ng, s.DCt.entry i k * s.net (it.lam.take s.nc) (s.nb + k) := by
  have hs := h.shaped
  have hnv := Rigid.nv_eq h.rigid.head
  have hlam := h.sized.lam_le
  have hrqz : ((s :: stages).flatMap Stage.rqz).getD i 0 = s.rqz.getD i 0 := by
    rw [List.flatMap_cons, Linear.getD_append_ite, if_pos (by rwa [hs.rqz, hnv])]
  have hcost : ∑ j ∈ range (s.nux + (dims stages).nv),
      blocks Stage.nux Stage.nux Stage.hessian (s :: stages) i j * it.ux.getD j 0 =
        ∑ j ∈ range s.nux, s.hessian i j * (it.ux.take s.nv).getD j 0 := by
    rw [sum_blocks_front hi]
    refine Finset.sum_congr rfl fun j hj => ?_
    rw [Linear.getD_take _ _ (by rw [hnv]; exact Finset.mem_range.mp hj)]
  have hbounds : (∑ k ∈ range (s.nb + (dims stages).nb),
      if (bounded (s :: stages)).getD k 0 = i then net (s :: stages) it.lam .lb .ub k else 0) =
        ∑ k ∈ range s.nb, if s.idxb.getD k 0 = i then s.net (it.lam.take s.nc) k else 0 := by
    rw [sum_bounded_front hs hi h.rest.length_bounded]
    refine Finset.sum_congr rfl fun k hk => ?_
    rw [net_bounds_front hlam (Finset.mem_range.mp hk)]
  have hgeneral : ∑ k ∈ range (s.ng + (dims stages).ng),
      blocks Stage.nux Stage.ng (fun s => s.DCt.entry) (s :: stages) i k * net (s :: stages) it.lam .lg .ug k =
        ∑ k ∈ range s.ng, s.DCt.entry i k * s.net (it.lam.take s.nc) (s.nb + k) := by
    rw [sum_blocks_front hi]
    refine Finset.sum_congr rfl fun k hk => ?_
    rw [net_general_front hlam (Finset.mem_range.mp hk)]
  show ∑ j ∈ range (s.nux + (dims stages).nv), _ + _ - ∑ r ∈ range (s.ne + (dims stages).ne), _
    + ∑ k ∈ range (s.nb + (dims stages).nb), _ + ∑ k ∈ range (s.ng + (dims stages).ng), _ = _
  rw [hcost, hrqz, sum_dynamics_rows_front hi, hbounds, hgeneral, sub_neg_eq_add]

/-- Behind the first stage, its step takes its multipliers away. -/
theorem stationary_back (i : Nat) :
    stationary (s :: stages) it (s.nux + i) =
      stationary stages (s.rest it) i - Stage.entered (s.step.elim 0 Step.nu) (some (it.pi.take s.ne)) i := by
  have hs := h.shaped
  have hnv := Rigid.nv_eq h.rigid.head
  have hlam := h.sized.lam_le
  have hpi := h.sized.pi_le
  have hrqz : ((s :: stages).flatMap Stage.rqz).getD (s.nux + i) 0 = (stages.flatMap Stage.rqz).getD i 0 := by
    rw [List.flatMap_cons, Linear.getD_append_ite, hs.rqz, hnv, if_neg (Nat.not_lt.mpr (Nat.le_add_right ..)),
      Nat.add_sub_cancel_left]
  have hbounds (k : Nat) : net (s :: stages) it.lam .lb .ub (s.nb + k) = net stages (it.lam.drop s.nc) .lb .ub k :=
    net_back hlam .lb .ub rfl k
  have hgeneral (k : Nat) : net (s :: stages) it.lam .lg .ug (s.ng + k) = net stages (it.lam.drop s.nc) .lg .ug k :=
    net_back hlam .lg .ug rfl k
  show ∑ j ∈ range (s.nux + (dims stages).nv), _ + _ - ∑ r ∈ range (s.ne + (dims stages).ne), _
    + ∑ k ∈ range (s.nb + (dims stages).nb), _ + ∑ k ∈ range (s.ng + (dims stages).ng), _ = _
  rw [sum_blocks_back, hrqz, sum_dynamics_rows_back i _ hpi, sum_bounded_back hs h.idxb i h.rest.length_bounded,
    sum_blocks_back]
  simp only [hbounds, hgeneral, stationary, Stage.rest, hnv, Linear.getD_drop]
  ring

end Coordinates

/-! ## The walk -/

variable [DecidableEq K]

section Results

variable (entering : Option (List K)) (gap : K)

theorem stationarity_cons (hns : s.ns = 0) :
    (residualsFrom (s :: stages) it entering gap).stationarity =
      s.stationarity (it.ux.take s.nv) (it.pi.take s.ne) entering (it.lam.take s.nc) ++
        (behind s stages it gap).stationarity := by
  have hsl : s.sl (it.ux.take s.nv) = [] := by rw [Stage.sl, Stage.run, hns, List.take_zero]
  have hsu : s.su (it.ux.take s.nv) = [] := by rw [Stage.su, Stage.run, hns, List.take_zero]
  have hlow : s.lowerSlackStationarity (it.ux.take s.nv) (it.lam.take s.nc) = [] := by
    rw [Stage.lowerSlackStationarity, hsl, Stage.slackStationarity, List.zip_nil_right, List.zipWith_nil_right]
  have hup : s.upperSlackStationarity (it.ux.take s.nv) (it.lam.take s.nc) = [] := by
    rw [Stage.upperSlackStationarity, hsu, Stage.slackStationarity, List.zip_nil_right, List.zipWith_nil_right]
  show _ ++ s.lowerSlackStationarity (it.ux.take s.nv) (it.lam.take s.nc) ++
    s.upperSlackStationarity (it.ux.take s.nv) (it.lam.take s.nc) ++ _ = _
  rw [hlow, hup, List.append_nil, List.append_nil]
  rfl

/-- The stationarity of the stages is that of the dense problem, less the multipliers of the
    step that leads into the first of them. -/
theorem stationarity_entries (h : Ready stages it) (he : Enters stages entering) :
    (residualsFrom stages it entering gap).stationarity.length = (dims stages).nv ∧
    ∀ i < (dims stages).nv, (residualsFrom stages it entering gap).stationarity.getD i 0 =
      stationary stages it i - Stage.entered (firstInputs stages) entering i := by
  induction stages generalizing it entering gap with
  | nil => exact ⟨rfl, fun i hi => absurd hi (Nat.not_lt_zero i)⟩
  | cons s stages ih =>
    have hparts : s.Parts (it.ux.take s.nv) (it.pi.take s.ne) (it.lam.take s.nc) entering :=
      { v := List.length_take_of_le h.sized.ux_le
        pi := List.length_take_of_le h.sized.pi_le
        lam := List.length_take_of_le h.sized.lam_le
        entering := he s rfl }
    have hlen := Stage.length_stationarity h.shaped (it.ux.take s.nv) (it.pi.take s.ne) (it.lam.take s.nc) (he s rfl)
    have hlead := h.linked.2.1
    rcases ih _ _ h.rest (enters_rest hlead h.sized.pi_le) with ⟨hrest, hback⟩
    rw [stationarity_cons _ _ h.rigid.head]
    constructor
    · rw [List.length_append, hlen, behind, hrest]
      rfl
    · intro i hi
      have hi : i < s.nux + (dims stages).nv := hi
      rw [Linear.getD_append_ite, hlen]
      by_cases hfst : i < s.nux
      · rw [if_pos hfst, Stage.stationarity_entry h.shaped hparts hfst, stationary_front h hfst]
        show _ = _ - Stage.entered s.nu entering i
        ring
      · rcases Nat.exists_eq_add_of_le (Nat.not_lt.mp hfst) with ⟨j, rfl⟩
        rw [if_neg hfst, Nat.add_sub_cancel_left, behind, hback j (by omega), stationary_back h, step_inputs hlead]
        show _ = _ - Stage.entered s.nu entering (s.nux + j)
        rw [entered_past he, sub_zero]

theorem equations_cons :
    (residualsFrom (s :: stages) it entering gap).equations =
      (s.step.elim [] fun step => s.equations step (it.ux.take s.nv) (it.ux.drop s.nv)) ++
        (behind s stages it gap).equations := by
  rw [residualsFrom_cons, Residuals.before, Stage.residuals]
  cases s.step <;> rfl

/-- The equations of the step that leaves the first stage are the first of the dense problem. -/
theorem equations_front (h : Ready (s :: stages) it) :
    (s.step.elim [] fun step => s.equations step (it.ux.take s.nv) (it.ux.drop s.nv)).length = s.ne ∧
    ∀ r < s.ne, (s.step.elim [] fun step => s.equations step (it.ux.take s.nv) (it.ux.drop s.nv)).getD r 0 =
      ∑ j ∈ range (s.nux + (dims stages).nv), dynamics (s :: stages) r j * it.ux.getD j 0
        - (s.step.elim [] Step.b).getD r 0 := by
  have hnv := Rigid.nv_eq h.rigid.head
  have hv : (it.ux.take s.nv).length = s.nv := List.length_take_of_le h.sized.ux_le
  have hrest : (it.ux.drop s.nv).length = (dims stages).nv := h.rest.sized.ux.trans h.rigid.tail.total_nv
  cases hst : s.step with
  | none =>
    simp only [Stage.ne, hst, Option.elim_none]
    exact ⟨rfl, fun r hr => absurd hr (Nat.not_lt_zero r)⟩
  | some step =>
    have hnext : step.nu + step.b.length ≤ (dims stages).nv := next_inside h.linked.2.1 step hst
    simp only [Stage.ne, hst, Option.elim_some]
    refine ⟨Stage.length_equations h.shaped hst _ (by rwa [hrest]), fun r hr => ?_⟩
    rw [sum_dynamics_front hst hr (by omega), Stage.equations_entry h.shaped hst hv (by rwa [hrest]) hr, Linear.getD_drop,
      hnv]
    congr 2
    refine Finset.sum_congr rfl fun j hj => ?_
    rw [Linear.getD_take _ _ (Finset.mem_range.mp hj)]

/-- The equations of the stages are those of the dense problem. -/
theorem equations_entries (h : Ready stages it) :
    (residualsFrom stages it entering gap).equations.length = (dims stages).ne ∧
    ∀ r < (dims stages).ne, (residualsFrom stages it entering gap).equations.getD r 0 =
      ∑ j ∈ range (dims stages).nv, dynamics stages r j * it.ux.getD j 0 - (rightSides stages).getD r 0 := by
  induction stages generalizing it entering gap with
  | nil => exact ⟨rfl, fun r hr => absurd hr (Nat.not_lt_zero r)⟩
  | cons s stages ih =>
    rcases equations_front h with ⟨hlen, hfront⟩
    rcases ih _ _ h.rest with ⟨hrest, hback⟩
    have hb : (s.step.elim [] Step.b).length = s.ne := by cases hst : s.step <;> simp only [Stage.ne, hst] <;> rfl
    rw [equations_cons]
    constructor
    · rw [List.length_append, hlen, behind, hrest]
      rfl
    · intro r hr
      have hr : r < s.ne + (dims stages).ne := hr
      show _ = ∑ j ∈ range (s.nux + (dims stages).nv), _ - (s.step.elim [] Step.b ++ rightSides stages).getD r 0
      rw [Linear.getD_append_ite, Linear.getD_append_ite, hlen, hb]
      by_cases hfst : r < s.ne
      · rw [if_pos hfst, if_pos hfst, hfront r hfst]
      · rcases Nat.exists_eq_add_of_le (Nat.not_lt.mp hfst) with ⟨r, rfl⟩
        rw [if_neg hfst, if_neg hfst, Nat.add_sub_cancel_left, sum_dynamics_back, behind, hback r (by omega)]
        simp only [Stage.rest, Rigid.nv_eq h.rigid.head, Linear.getD_drop]

/-- The rows of the stages are those of the dense problem, side by side. -/
theorem inequalities_entries (h : Ready stages it) :
    (residualsFrom stages it entering gap).inequalities.length = total (stages.map Stage.nc) ∧
    ∀ which : Side, ∀ k < which.length (dims stages),
      (side which stages (residualsFrom stages it entering gap).inequalities).getD k 0 =
        -value stages it.ux which k + which.sign * (side which stages (stages.flatMap Stage.d)).getD k 0
          + which.sign * (side which stages it.t).getD k 0 := by
  induction stages generalizing it entering gap with
  | nil => exact ⟨rfl, fun which k hk => by cases which <;> exact absurd hk (Nat.not_lt_zero k)⟩
  | cons s stages ih =>
    have hs := h.shaped
    have hns := h.rigid.head
    have hv : (it.ux.take s.nv).length = s.nv := List.length_take_of_le h.sized.ux_le
    have ht : (it.t.take s.nc).length = s.nc := List.length_take_of_le h.sized.t_le
    have hlen := Stage.length_inequalities hs hv ht
    have hfirst := Stage.inequalities_entry hs hns h.idxb hv ht
    rcases ih (some (it.pi.take s.ne)) (gap + Linear.sum (mul (it.lam.take s.nc) (it.t.take s.nc))) h.rest with
      ⟨hrest, hback⟩
    have hcons : (residualsFrom (s :: stages) it entering gap).inequalities =
        s.inequalities (it.ux.take s.nv) (it.t.take s.nc) ++ (behind s stages it gap).inequalities := rfl
    rw [hcons, List.flatMap_cons]
    constructor
    · rw [List.length_append, hlen, behind, hrest, List.map_cons, total_cons]
    · intro which k hk
      have hin : s.nc ≤ (s.inequalities (it.ux.take s.nv) (it.t.take s.nc) ++
          (behind s stages it gap).inequalities).length := by
        rw [List.length_append, hlen]; exact Nat.le_add_right ..
      have hd : s.nc ≤ (s.d ++ stages.flatMap Stage.d).length := by
        rw [List.length_append, hs.d]; exact Nat.le_add_right ..
      rw [length_cons] at hk
      by_cases hfst : k < which.length s.dims
      · rw [side_front hin which hfst, side_front hd which hfst, side_front h.sized.t_le which hfst,
          List.take_left' hlen, List.take_left' hs.d, hfirst which hfst, value_front hs h.idxb _ which hfst,
          Rigid.nv_eq hns]
      · rcases Nat.exists_eq_add_of_le (Nat.not_lt.mp hfst) with ⟨k, rfl⟩
        rw [side_back hin, side_back hd, side_back h.sized.t_le, List.drop_left' hlen, List.drop_left' hs.d,
          value_back hs h.rest.length_bounded _ which (by omega), behind, hback which k (by omega), Stage.rest,
          Rigid.nv_eq hns]

theorem length_complementarity (h : Ready stages it) :
    (residualsFrom stages it entering gap).complementarity.length = total (stages.map Stage.nc) := by
  have hl := length_products h.sized
  rw [complementarity_eq h.linked h.sized, Linear.length_axpby (h.length_m.trans hl.symm), hl]

end Results

end HorizonQp.Flat
