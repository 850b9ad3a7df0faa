/-
  HorizonQp.Proofs.Staged.General — bounds written as general constraints.

  A bound on a variable is a general constraint whose row is a unit vector. `Generalized`
  relates a stage to the one that has all its bounds as general constraints, in front of its
  own. The two read different parts of `lam`, `t` and `d` and go through different kernels,
  an indexed sum for the bounds and two products for the constraints; over a field the
  kernels give the same rows (`Generalized.constraint`) and the same forces
  (`Generalized.net_rows`), so the stages have the same residuals
  (`Generalized.residuals_eq`), and so do all the stages of a problem along the walk
  (`residualsFrom_generalized`).

  The two problems also pass and fail the same checks, so updates on them have the same
  outcome (`update_generalized`).
-/

import HorizonQp.Proofs.Staged.Residuals
import HorizonQp.Proofs.Staged.Contents

namespace HorizonQp

open Linear (Matrix axpby mul)
open Finset (range)

namespace Stage

variable {K : Type} [ExactField K]

/-- The vector of `n` entries with a one at `k` and zeros elsewhere. -/
def unit (n k : Nat) : List K := (List.range n).map fun i => if i = k then 1 else 0

theorem unit_entry {n k i : Nat} (hi : i < n) : (unit n k : List K).getD i 0 = if i = k then 1 else 0 := by
  have hlen : i < (List.range n).length := by rwa [List.length_range]
  rw [unit, Linear.getD_map_lt _ 0 0 hlen, List.getD_eq_getElem _ _ hlen, List.getElem_range]

/-- Stage `s'` is stage `s` with its bounds as general constraints, in front of those it has. -/
structure Generalized (s s' : Stage K) : Prop where
  nu : s'.nu = s.nu
  nx : s'.nx = s.nx
  ns : s'.ns = s.ns
  nb : s'.nb = 0
  ng : s'.ng = s.nb + s.ng
  columns : s'.DCt.columns = s.idxb.map (unit s.nux) ++ s.DCt.columns
  RSQrq : s'.RSQrq = s.RSQrq
  rqz : s'.rqz = s.rqz
  d : s'.d = s.d
  m : s'.m = s.m
  Z : s'.Z = s.Z
  idxs : s'.idxs = s.idxs
  step : s'.step = s.step

namespace Generalized

variable {s s' : Stage K} (g : s.Generalized s')
include g

theorem nux : s'.nux = s.nux := by rw [Stage.nux, Stage.nux, g.nu, g.nx]

theorem nv : s'.nv = s.nv := by rw [Stage.nv, Stage.nv, g.nux, g.ns]

theorem rows : s'.rows = s.rows := by rw [Stage.rows, Stage.rows, g.nb, g.ng, Nat.zero_add]

theorem nc : s'.nc = s.nc := by rw [Stage.nc, Stage.nc, g.rows, g.ns]

theorem ne : s'.ne = s.ne := by rw [Stage.ne, Stage.ne, g.step]

theorem first (it : Iterate K) : s'.first it = s.first it := by
  rw [Stage.first, Stage.first, g.nv, g.ne, g.nc]

theorem rest (it : Iterate K) : s'.rest it = s.rest it := by
  rw [Stage.rest, Stage.rest, g.nv, g.ne, g.nc]

theorem net (lam : List K) (k : Nat) : s'.net lam k = s.net lam k := by
  rw [Stage.net, Stage.net, g.rows]

theorem moved (slack : Nat → K) (k : Nat) : s'.moved slack k = s.moved slack k := by
  rw [Stage.moved, Stage.moved, g.ns, g.idxs]

section Columns

variable (hs : s.Shaped) (hs' : s'.Shaped)
include hs hs'

omit hs in
theorem entry {i k : Nat} (hi : i < s.nux) (hk : k < s.rows) :
    s'.DCt.entry i k = ((s.idxb.map (unit s.nux) ++ s.DCt.columns).getD k []).getD i 0 := by
  have hk' : k < s'.DCt.cols := by rwa [hs'.DCt_cols, g.ng]
  have hi' : i < s'.DCt.rows := by rwa [hs'.DCt_rows, g.nux]
  rw [← g.columns, Matrix.columns_entry _ hk', Matrix.col_entry, if_pos hi']

/-- A bound is a unit vector. -/
theorem bound_entry {i k : Nat} (hi : i < s.nux) (hk : k < s.nb) :
    s'.DCt.entry i k = if i = s.idxb.getD k 0 then 1 else 0 := by
  have hlen : k < s.idxb.length := by rwa [hs.idxb]
  rw [g.entry hs' hi (Nat.lt_of_lt_of_le hk (Nat.le_add_right ..)), Linear.getD_append_ite, List.length_map,
    if_pos hlen, Linear.getD_map_lt _ 0 [] hlen, unit_entry hi]

theorem general_entry {i k : Nat} (hi : i < s.nux) (hk : k < s.ng) : s'.DCt.entry i (s.nb + k) = s.DCt.entry i k := by
  have hi' : i < s.DCt.rows := by rwa [hs.DCt_rows]
  rw [g.entry hs' hi (Nat.add_lt_add_left hk _), Linear.getD_append_ite, List.length_map, hs.idxb,
    if_neg (by omega), Nat.add_sub_cancel_left, Matrix.columns_entry _ (by rwa [hs.DCt_cols]), Matrix.col_entry,
    if_pos hi']

/-- The rows have the same values. -/
theorem constraint (hi : ∀ k ∈ s.idxb, k < s.nux) (v : List K) {k : Nat} (hk : k < s.rows) :
    s'.constraint v k = s.constraint v k := by
  rw [Stage.constraint, if_neg (by rw [g.nb]; omega), g.nb, Nat.sub_zero, g.nux, Stage.constraint]
  by_cases hb : k < s.nb
  · have hlt : s.idxb.getD k 0 < s.nux := Linear.getD_lt hi (by rwa [hs.idxb])
    rw [if_pos hb]
    calc ∑ i ∈ range s.nux, s'.DCt.entry i k * v.getD i 0
        = ∑ i ∈ range s.nux, if i = s.idxb.getD k 0 then v.getD i 0 else 0 := by
          refine Finset.sum_congr rfl fun i hi => ?_
          rw [g.bound_entry hs hs' (Finset.mem_range.mp hi) hb, ite_mul, one_mul, zero_mul]
      _ = v.getD (s.idxb.getD k 0) 0 := by
          rw [Finset.sum_ite_eq' (range s.nux), if_pos (Finset.mem_range.mpr hlt)]
  · rw [if_neg hb]
    refine Finset.sum_congr rfl fun i hi => ?_
    obtain ⟨j, rfl⟩ : ∃ j, k = s.nb + j := ⟨k - s.nb, by omega⟩
    rw [g.general_entry hs hs' (Finset.mem_range.mp hi) (by rw [Stage.rows] at hk; omega), Nat.add_sub_cancel_left]

/-- The multipliers of the rows act on the same variables. -/
theorem net_rows (lam : List K) {i : Nat} (hi : i < s.nux) :
    ∑ k ∈ range s'.ng, s'.DCt.entry i k * s'.net lam (s'.nb + k) =
      (∑ k ∈ range s.nb, if s.idxb.getD k 0 = i then s.net lam k else 0)
        + ∑ k ∈ range s.ng, s.DCt.entry i k * s.net lam (s.nb + k) := by
  rw [g.ng, g.nb, Finset.sum_range_add]
  congr 1
  · refine Finset.sum_congr rfl fun k hk => ?_
    rw [g.bound_entry hs hs' hi (Finset.mem_range.mp hk), Nat.zero_add, g.net, ite_mul, one_mul, zero_mul]
    simp only [eq_comm]
  · refine Finset.sum_congr rfl fun k hk => ?_
    rw [g.general_entry hs hs' hi (Finset.mem_range.mp hk), Nat.zero_add, g.net]

end Columns

/-! ## The residuals of a stage -/

theorem leaving (pi : List K) (i : Nat) : s'.leaving pi i = s.leaving pi i := by
  rw [Stage.leaving, Stage.leaving, g.step]

theorem hessian (i j : Nat) : s'.hessian i j = s.hessian i j := by rw [Stage.hessian, Stage.hessian, g.RSQrq]

variable [DecidableEq K] {p : Iterate K} {entering : Option (List K)} {after : List K}
  (h : s.Fed p entering after) (h' : s'.Fed p entering after)
include h h'

theorem stationarity_eq (mu : K) :
    (s'.residuals p entering after mu).stationarity = (s.residuals p entering after mu).stationarity := by
  obtain ⟨hux, hsl, hsu⟩ := h.stationarity_entries mu
  obtain ⟨hux', hsl', hsu'⟩ := h'.stationarity_entries mu
  simp only [g.nux, g.ns, g.rows, g.Z, g.rqz, g.idxs] at hux' hsl' hsu'
  have hlen := (h.holds mu).stationarity
  have hlen' := (h'.holds mu).stationarity
  refine Linear.ext_getD 0 (by rw [hlen, hlen', g.nv]) fun k hk => ?_
  rw [hlen', g.nv, Stage.nv] at hk
  by_cases hlt : k < s.nux
  · rw [hux' k hlt, hux k hlt, g.net_rows h.shaped h'.shaped p.lam hlt, g.leaving, g.nu, g.nb, Finset.sum_range_zero,
      add_zero, ← add_assoc]
    simp only [g.hessian]
  · by_cases hlow : k < s.nux + s.ns
    · obtain ⟨j, rfl⟩ := Nat.exists_eq_add_of_le (Nat.le_of_not_lt hlt)
      rw [hsl' j (by omega), hsl j (by omega)]
    · obtain ⟨j, rfl⟩ := Nat.exists_eq_add_of_le (Nat.le_of_not_lt hlow)
      rw [hsu' j (by omega), hsu j (by omega)]

omit h h' in
theorem equations_eq (mu : K) :
    (s'.residuals p entering after mu).equations = (s.residuals p entering after mu).equations := by
  rw [residuals, residuals, g.step]
  simp only [Stage.equations, Stage.ux, g.nux]

theorem inequalities_eq : s'.inequalities p.ux p.t = s.inequalities p.ux p.t := by
  obtain ⟨hlow, hup, hls, hus⟩ := inequalities_entries h.shaped h.idxb h.ux h.t
  obtain ⟨hlow', hup', hls', hus'⟩ := inequalities_entries h'.shaped h'.idxb h'.ux h'.t
  simp only [g.nux, g.ns, g.rows, g.d, g.moved] at hlow' hup' hls' hus'
  have hlen := length_inequalities h.shaped h.ux h.t
  have hlen' := length_inequalities h'.shaped h'.ux h'.t
  have hrow (k : Nat) (hk : k < s.rows) := g.constraint h.shaped h'.shaped h.idxb p.ux hk
  refine Linear.ext_getD 0 (by rw [hlen, hlen', g.nc]) fun k hk => ?_
  rw [hlen', g.nc, Stage.nc] at hk
  by_cases hl : k < s.rows
  · rw [hlow' k hl, hlow k hl, hrow k hl]
  · by_cases hu : k < 2 * s.rows
    · obtain ⟨j, rfl⟩ := Nat.exists_eq_add_of_le (Nat.le_of_not_lt hl)
      rw [hup' j (by omega), hup j (by omega), hrow j (by omega)]
    · by_cases hs : k < 2 * s.rows + s.ns
      · obtain ⟨j, rfl⟩ := Nat.exists_eq_add_of_le (Nat.le_of_not_lt hu)
        rw [hls' j (by omega), hls j (by omega)]
      · obtain ⟨j, rfl⟩ := Nat.exists_eq_add_of_le (Nat.le_of_not_lt hs)
        rw [hus' j (by omega), hus j (by omega)]

/-- A stage and the one with its bounds as general constraints have the same residuals. -/
theorem residuals_eq (mu : K) : s'.residuals p entering after mu = s.residuals p entering after mu := by
  have hstat := g.stationarity_eq h h' mu
  have heq : (s'.residuals p entering after mu).equations = (s.residuals p entering after mu).equations :=
    g.equations_eq mu
  have hineq := g.inequalities_eq h h'
  simp only [residuals, Residuals.mk.injEq] at hstat heq ⊢
  exact ⟨hstat, heq, hineq, by rw [g.m], trivial⟩

end Generalized

end Stage

/-! ## The residuals of the stages -/

section Walk

variable {K : Type} [ExactField K] [DecidableEq K] {stages stages' : List (Stage K)}

/-- What the walk makes of stages, it makes of those with the bounds as general constraints. -/
theorem residualsFrom_generalized (hg : List.Forall₂ Stage.Generalized stages stages') {it : Iterate K}
    {entering : Option (List K)} (h : Suits stages it) (h' : Suits stages' it) (he : Enters stages entering)
    (he' : Enters stages' entering) (gap : K) :
    residualsFrom stages' it entering gap = residualsFrom stages it entering gap := by
  induction hg generalizing it entering gap with
  | nil => rfl
  | @cons s s' stages stages' g hg ih =>
    have hfront := h.first he
    have hfront' := h'.first he'
    have hback' := h'.rest
    have henters' := h'.enters
    rw [g.first, g.nv] at hfront'
    rw [g.rest] at hback'
    rw [g.ne] at henters'
    simp only [residualsFrom, g.first, g.rest, g.nv, g.ne, g.nc]
    rw [g.residuals_eq hfront hfront', ih h.rest hback' h.enters henters']

theorem stageResiduals_generalized (hg : List.Forall₂ Stage.Generalized stages stages') {it : Iterate K}
    (h : Suits stages it) (h' : Suits stages' it) : stageResiduals stages' it = stageResiduals stages it := by
  rw [stageResiduals, stageResiduals,
    residualsFrom_generalized hg h h' (enters_none stages) (enters_none stages'),
    total_map_related hg fun _ _ g => g.nc]

end Walk

/-- The stages with the bounds as general constraints have index arrays that point inside, if the stages have. -/
theorem indices_generalized {K : Type} [ExactField K] {stages stages' : List (Stage K)}
    (hg : List.Forall₂ Stage.Generalized stages stages') (hshaped : ∀ s' ∈ stages', s'.Shaped)
    (hidxs : ∀ s ∈ stages, ∀ k ∈ s.idxs, k < s.rows) :
    ∀ s' ∈ stages', (∀ k ∈ s'.idxb, k < s'.nux) ∧ ∀ k ∈ s'.idxs, k < s'.rows := by
  induction hg with
  | nil => exact nofun
  | @cons s s' stages stages' g _ ih =>
    rw [List.forall_mem_cons] at hshaped hidxs ⊢
    refine ⟨⟨?_, ?_⟩, ih hshaped.2 hidxs.2⟩
    · have hnone : s'.idxb = [] := List.eq_nil_of_length_eq_zero (hshaped.1.idxb.trans g.nb)
      rw [hnone]
      exact nofun
    · rw [g.idxs, g.rows]
      exact hidxs.1

/-! ## Updates -/

namespace Workspace

section Update

variable {K : Type} [ExactField K] [DecidableEq K] [Stored K] [FixedWidth K]

/-- Problems of the same stages, but for bounds written as general constraints, have the same
    residuals at every iterate, and refuse the same iterates. -/
theorem update_generalized {q q' : Qp K} (h : q.Obtained) (h' : q'.Obtained) {stages stages' : List (Stage K)}
    (hs : q.stages? = some stages) (hs' : q'.stages? = some stages')
    (hg : List.Forall₂ Stage.Generalized stages stages') (hidxb : ∀ s ∈ stages, ∀ k ∈ s.idxb, k < s.nux)
    (hidxs : ∀ s ∈ stages, ∀ k ∈ s.idxs, k < s.rows) {w w' : Workspace K} (hw : checkDims w.dims q.dims = .ok ())
    (hw' : checkDims w'.dims q'.dims = .ok ()) (it : Iterate K) :
    (w'.update q' it).map residuals = (w.update q it).map residuals ∧
      (Sized stages it → ∃ r r', w.update q it = .ok r ∧ w'.update q' it = .ok r' ∧ r'.residuals = r.residuals) := by
  have hl := h.laid
  have hl' := h'.laid
  cases hs.symm.trans hl.stages?_eq
  cases hs'.symm.trans hl'.stages?_eq
  have hidx := fun s hs => And.intro (hidxb s hs) (hidxs s hs)
  have hidx' := indices_generalized hg (shaped_of_linked hl'.linked) hidxs
  have hcheck : it.check q'.dims = it.check q.dims := by
    simp only [Iterate.check, checkTotal, hl.nvt?_eq, hl.net?_eq, hl.nct?_eq, hl'.nvt?_eq, hl'.net?_eq, hl'.nct?_eq,
      total_map_related hg fun _ _ g => g.nv, total_map_related hg fun _ _ g => g.ne,
      total_map_related hg fun _ _ g => g.nc]
  have hsame (hit : Sized q.stages it) : stageResiduals q'.stages it = stageResiduals q.stages it := by
    have hit' : Sized q'.stages it := by rwa [← iterate_check_eq_ok hl', hcheck, iterate_check_eq_ok hl]
    exact stageResiduals_generalized hg ⟨hl.linked, hidxb, hidxs, hit⟩
      ⟨hl'.linked, fun s hs => (hidx' s hs).1, fun s hs => (hidx' s hs).2, hit'⟩
  rw [update_eq hl hw hidx it, update_eq hl' hw' hidx' it, hcheck]
  constructor
  · cases hok : it.check q.dims with
    | error failure => rfl
    | ok u => exact congrArg Except.ok (hsame ((iterate_check_eq_ok hl).mp hok))
  · intro hit
    rw [(iterate_check_eq_ok hl).mpr hit]
    exact ⟨_, _, rfl, rfl, hsame hit⟩

/-! ### Three bounds, two of them on one state, and two soft rows -/

/-- Two states and an input, then a state. -/
def bounded : Dims := ⟨1, [2, 1], [1, 0], [3, 0], [1, 0], [2, 0], [1, 0], [2, 0]⟩

/-- The same with the three bounds as general constraints. -/
def unbounded : Dims := ⟨1, [2, 1], [1, 0], [0, 0], [0, 0], [0, 0], [4, 0], [2, 0]⟩

/-- Small whole numbers, with the bounds `2 0 2` and slacks on rows `3` and `2` of the first stage. -/
def softened (d : Dims) (general : Nat → Nat) : Contents ℚ d :=
  .ofEntries d (fun kind _ k => ((if kind = .DCt then general k % 3 else k % 3 : ℕ) : ℚ))
    (fun kind _ k => (if kind = .idxb then 2 else 3) * (k + 1) % 4)
    (fun _ _ _ => Nat.lt_trans (Nat.mod_lt _ (by decide)) (by decide))

/-- Whole numbers below three are doubles. -/
theorem exact_softened (d : Dims) (general : Nat → Nat) (kind : RegionKind) (i : Nat) :
    ∀ x ∈ (softened d general).numbers kind i, Stored.decode (Stored.encode x) = x := by
  have hsmall : ∀ n : Nat, n < 3 → (Stored.decode (Stored.encode (n : ℚ)) : ℚ) = n := by decide +kernel
  intro x hx
  obtain ⟨k, -, rfl⟩ := List.mem_map.mp hx
  apply hsmall
  split <;> exact Nat.mod_lt _ (by decide)

/-- Three unit vectors and a general constraint, column by column. -/
def rowsOfBounds (k : Nat) : Nat := [0, 0, 1, 1, 0, 0, 0, 0, 1, 0, 1, 2].getD k 0

theorem generalized_softened : List.Forall₂ Stage.Generalized ((List.range 2).map (softened bounded id).stageAt)
    ((List.range 2).map (softened unbounded rowsOfBounds).stageAt) := by
  refine .cons ?_ (.cons ?_ .nil)
  · constructor <;> decide +kernel
  · constructor <;> decide +kernel

theorem update_generalized_softened : ∃ (q q' : Qp ℚ) (s last s' last' : Stage ℚ) (r r' : Workspace ℚ) (it : Iterate ℚ),
    q.stages? = some [s, last] ∧ q'.stages? = some [s', last'] ∧ s.idxb = [2, 0, 2] ∧ s.idxs = [3, 2] ∧
    s.DCt.columns = [[0, 1, 2]] ∧ s'.nb = 0 ∧ s'.DCt.columns = [[0, 0, 1], [1, 0, 0], [0, 0, 1], [0, 1, 2]] ∧
    it = ⟨[1, 2, 3, 4, 5, 6, 7, 8], [9], [1, 2, 3, 4, 5, 6, 7, 8, 9, 10, 11, 12], [1, 1, 1, 1, 1, 1, 2, 2, 2, 2, 2, 2]⟩ ∧
    update ⟨q.dims, ⟨[], [], [], [], 0⟩⟩ q it = .ok r ∧ update ⟨q'.dims, ⟨[], [], [], [], 0⟩⟩ q' it = .ok r' ∧
    r'.residuals = r.residuals := by
  have hd : bounded.Consistent := by decide
  have hd' : unbounded.Consistent := by decide
  obtain ⟨q, h, hq, hs⟩ := (softened bounded id).exists_stages hd rfl (exact_softened _ _)
  obtain ⟨q', h', hq', hs'⟩ := (softened unbounded rowsOfBounds).exists_stages hd' rfl (exact_softened _ _)
  have hw : checkDims (Workspace.mk q.dims (⟨[], [], [], [], 0⟩ : Residuals ℚ)).dims q.dims = .ok () :=
    checkDims_self h.bound.toLaid
  have hw' : checkDims (Workspace.mk q'.dims (⟨[], [], [], [], 0⟩ : Residuals ℚ)).dims q'.dims = .ok () :=
    checkDims_self h'.bound.toLaid
  obtain ⟨-, hok⟩ := update_generalized h.obtained h'.obtained hs hs' generalized_softened (by decide +kernel)
    (by decide +kernel) hw hw'
    ⟨[1, 2, 3, 4, 5, 6, 7, 8], [9], [1, 2, 3, 4, 5, 6, 7, 8, 9, 10, 11, 12], [1, 1, 1, 1, 1, 1, 2, 2, 2, 2, 2, 2]⟩
  obtain ⟨r, r', hr, hr', heq⟩ := hok ⟨by decide, by decide, by decide, by decide⟩
  exact ⟨q, q', _, _, _, _, r, r', _, hs, hs', by decide +kernel, by decide +kernel, by decide +kernel, rfl,
    by decide +kernel, rfl, hr, hr', heq⟩

end Update

end Workspace

end HorizonQp
