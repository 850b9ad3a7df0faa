/-
  HorizonQp.Proofs.Dense.Update — when an update of dense residuals answers.

  It does exactly when the workspace is for the dimensions of the problem and everything
  handed to it has the size that they imply (`Fits`, `update_eq_ok`). The answer is then
  the composition of the kernels (`DenseQp.residuals`), whatever the arithmetic. A vector of
  inequality rows is its sides one behind the other (`Side.append_eq`, `Side.part_append`),
  as soon as a word counts the rows (`DenseDims.Counted`). No update answers otherwise.
-/

import HorizonQp.Residual.Dense
import HorizonQp.Proofs.Outcome
import HorizonQp.Proofs.Linear.Lengths
import HorizonQp.Proofs.Memory.Sizes

namespace HorizonQp

open Linear (Matrix axpby gather scatterAdd mulDot axpby? gather? scatterAdd? mulDot?)
open Word (wrap)

namespace DenseDims

/-- A word counts the inequality rows. -/
def Counted (d : DenseDims) : Prop := 2 * (d.nb + d.ng) < Word.limit

instance (d : DenseDims) : Decidable d.Counted := inferInstanceAs (Decidable (_ < _))

theorem Counted.nc_eq {d : DenseDims} (h : d.Counted) : d.nc = 2 * (d.nb + d.ng) := Word.wrap_of_lt h

/-- Room for all the rows that the dimensions say is room that a word counts. -/
theorem counted_of_le {d : DenseDims} (h : 2 * (d.nb + d.ng) ≤ d.nc) : d.Counted :=
  Nat.lt_of_le_of_lt h (Word.wrap_lt _)

end DenseDims

namespace Side

variable {α : Type} {d : DenseDims} (side : Side)

theorem offset_add_length_le_rows (d : DenseDims) : side.offset d + side.length d ≤ 2 * (d.nb + d.ng) := by
  cases side <;> simp only [offset, length] <;> omega

section Counted

variable (hd : d.Counted)
include hd

theorem offset_add_length_le : side.offset d + side.length d ≤ d.nc :=
  hd.nc_eq ▸ side.offset_add_length_le_rows d

theorem start_eq : side.start d = side.offset d :=
  Word.wrap_of_lt (Nat.lt_of_le_of_lt (Nat.le_trans (Nat.le_add_right ..) (side.offset_add_length_le_rows d)) hd)

theorem start_add_length_le : side.start d + side.length d ≤ d.nc :=
  (side.start_eq hd).symm ▸ side.offset_add_length_le hd

theorem length_part {x : List α} (h : x.length = d.nc) : (side.part d x).length = side.length d := by
  have := side.offset_add_length_le hd
  rw [part, List.length_take, List.length_drop]
  omega

end Counted

/-! ### The sides one behind the other -/

/-- The sides in front of one. -/
def ahead (f : Side → List α) : Side → List α
  | lb => []
  | lg => f lb
  | ub => f lb ++ f lg
  | ug => f lb ++ f lg ++ f ub

/-- The sides behind one. -/
def behind (f : Side → List α) : Side → List α
  | lb => f lg ++ f ub ++ f ug
  | lg => f ub ++ f ug
  | ub => f ug
  | ug => []

theorem append_eq (f : Side → List α) : f lb ++ f lg ++ f ub ++ f ug = ahead f side ++ (f side ++ behind f side) := by
  cases side <;> simp only [ahead, behind, List.nil_append, List.append_nil, List.append_assoc]

variable {side} in
theorem ahead_congr {f f' : Side → List α} (h : ∀ other, other ≠ side → f' other = f other) :
    ahead f' side = ahead f side := by
  cases side with
  | lb => rfl
  | lg => exact h lb nofun
  | ub => simp only [ahead, h lb nofun, h lg nofun]
  | ug => simp only [ahead, h lb nofun, h lg nofun, h ub nofun]

variable {side} in
theorem behind_congr {f f' : Side → List α} (h : ∀ other, other ≠ side → f' other = f other) :
    behind f' side = behind f side := by
  cases side with
  | lb => simp only [behind, h lg nofun, h ub nofun, h ug nofun]
  | lg => simp only [behind, h ub nofun, h ug nofun]
  | ub => exact h ug nofun
  | ug => rfl

variable (d) {f : Side → List α} (hf : ∀ side, (f side).length = side.length d)
include hf

theorem length_ahead : (ahead f side).length = side.offset d := by
  have hlb := hf lb
  have hlg := hf lg
  have hub := hf ub
  cases side <;> simp only [ahead, offset, length, List.length_nil, List.length_append] at * <;> omega

/-- What the four sides make up one behind the other has them as its parts. -/
theorem part_append : side.part d (f lb ++ f lg ++ f ub ++ f ug) = f side := by
  rw [append_eq side, part, List.drop_left' (length_ahead d side hf), List.take_left' (hf side)]

end Side

namespace DenseQp

section Checks

variable {α : Type}

/-- Everything has the size that the dimensions of the problem imply, and a word counts its
    rows. Of `H` only the first `nv` rows need be there. -/
structure Fits (q : DenseQp α) (it : DenseIterate α) : Prop where
  counted : q.dims.Counted
  g : q.dims.nv = q.g.length
  b : q.dims.ne = q.b.length
  idxb : q.dims.nb = q.idxb.length
  idxb_lt : ∀ i ∈ q.idxb, i < q.dims.nv
  d : q.dims.nc = q.d.length
  m : q.dims.nc = q.m.length
  H_count : wrap (q.dims.nv * q.dims.nv) = q.H.count
  A_count : wrap (q.dims.ne * q.dims.nv) = q.A.count
  Ct_count : wrap (q.dims.nv * q.dims.ng) = q.Ct.count
  H_rows : q.dims.nv ≤ q.H.rows
  H_cols : q.H.cols = q.dims.nv
  H_filled : q.H.Filled
  A_rows : q.A.rows = q.dims.ne
  A_cols : q.A.cols = q.dims.nv
  A_filled : q.A.Filled
  Ct_rows : q.Ct.rows = q.dims.nv
  Ct_cols : q.Ct.cols = q.dims.ng
  Ct_filled : q.Ct.Filled
  v : q.dims.nv = it.v.length
  pi : q.dims.ne = it.pi.length
  lam : q.dims.nc = it.lam.length
  t : q.dims.nc = it.t.length

theorem Fits.bounded_lt {q : DenseQp α} {it : DenseIterate α} (h : q.Fits it) {k : Nat} (hk : k < q.dims.nb) :
    q.idxb.getD k 0 < q.dims.nv := by
  have hk : k < q.idxb.length := h.idxb ▸ hk
  rw [List.getD_eq_getElem?_getD, List.getElem?_eq_getElem hk]
  exact h.idxb_lt _ (List.getElem_mem hk)

theorem checkDims_eq_ok {work dims : DenseDims} : checkDims work dims = .ok () ↔ work = dims := by
  simp only [checkDims, bind_unit_eq_ok, checkLength_eq_ok]
  obtain ⟨nv, ne, nb, ng⟩ := work
  obtain ⟨nv', ne', nb', ng'⟩ := dims
  simp only [DenseDims.mk.injEq]

theorem checkData_eq_ok {q : DenseQp α} :
    q.checkData = .ok () ↔
      q.dims.nv = q.g.length ∧ q.dims.ne = q.b.length ∧ q.dims.nb = q.idxb.length ∧
      (∀ i ∈ q.idxb, i < q.dims.nv) ∧ q.dims.nc = q.d.length ∧ q.dims.nc = q.m.length ∧
      wrap (q.dims.nv * q.dims.nv) = q.H.count ∧ wrap (q.dims.ne * q.dims.nv) = q.A.count ∧
      wrap (q.dims.nv * q.dims.ng) = q.Ct.count := by
  simp only [checkData, bind_unit_eq_ok, checkLength_eq_ok, checkIndices_eq_ok]

theorem checkIterate_eq_ok {d : DenseDims} {it : DenseIterate α} :
    checkIterate d it = .ok () ↔
      d.nv = it.v.length ∧ d.ne = it.pi.length ∧ d.nc = it.lam.length ∧ d.nc = it.t.length := by
  simp only [checkIterate, bind_unit_eq_ok, checkLength_eq_ok]

theorem check_eq_ok {q : DenseQp α} {work : DenseDims} {it : DenseIterate α} :
    q.check work it = .ok () ↔ work = q.dims ∧ q.checkData = .ok () ∧ checkIterate q.dims it = .ok () := by
  simp only [check, bind_unit_eq_ok, checkDims_eq_ok]

end Checks

section Update

variable {α : Type} [Scalar α]

def costs (q : DenseQp α) (it : DenseIterate α) : List α :=
  q.A.transposedProduct (-1) it.pi 1 (q.H.symmetricProduct .lower 1 it.v 1 q.g)

def multipliers (q : DenseQp α) (it : DenseIterate α) (low up : Side) : List α :=
  axpby 1 (low.part q.dims it.lam) (-1) (up.part q.dims it.lam)

def stationarity (q : DenseQp α) (it : DenseIterate α) : List α :=
  q.Ct.product 1 (q.multipliers it .lg .ug) 1 (scatterAdd 1 (q.multipliers it .lb .ub) q.idxb (q.costs it))

def equations (q : DenseQp α) (it : DenseIterate α) : List α := q.A.product 1 it.v (-1) q.b

def inequalityRows (q : DenseQp α) (it : DenseIterate α) (side : Side) (negated : List α) : List α :=
  let sign : α := if side.isUpper then -1 else 1
  axpby sign (side.part q.dims it.t) 1 (axpby sign (side.part q.dims q.d) 1 negated)

/-- The negated values of the constraints of a side. -/
def negatedValues (q : DenseQp α) (it : DenseIterate α) : Side → List α
  | .lb | .ub => gather (-1) it.v q.idxb
  | .lg | .ug => q.Ct.transposedProduct (-1) it.v 0 (List.replicate q.dims.ng 0)

def inequalities (q : DenseQp α) (it : DenseIterate α) : List α :=
  let rows (side : Side) := q.inequalityRows it side (q.negatedValues it side)
  rows .lb ++ rows .lg ++ rows .ub ++ rows .ug

def complementarity (q : DenseQp α) (it : DenseIterate α) : List α :=
  axpby (-1) q.m 1 (mulDot it.lam it.t).1

def gap (q : DenseQp α) (it : DenseIterate α) : α :=
  if 0 < q.dims.nc then (mulDot it.lam it.t).2 / (q.dims.nc : α) else 0

def residuals (q : DenseQp α) (it : DenseIterate α) : Residuals α where
  stationarity := q.stationarity it
  equations := q.equations it
  inequalities := q.inequalities it
  complementarity := q.complementarity it
  mu := q.gap it

variable (q : DenseQp α) {it : DenseIterate α}

theorem length_multipliers (hc : q.dims.Counted) (hlam : q.dims.nc = it.lam.length) (low up : Side)
    (h : low.length q.dims = up.length q.dims) : (q.multipliers it low up).length = up.length q.dims := by
  have hl := low.length_part hc hlam.symm
  have hu := up.length_part hc hlam.symm
  rw [multipliers, Linear.length_axpby (by omega), hu]

theorem length_costs (it : DenseIterate α) (h : q.A.cols = q.g.length) : (q.costs it).length = q.g.length := by
  rw [costs, Matrix.length_transposedProduct _ _ _ (by rw [Matrix.length_symmetricProduct, h]),
    Matrix.length_symmetricProduct]

variable {q}

/-! ### What the checks of the data and of the iterate are enough for -/

section Counted

variable (hc : q.dims.Counted)
include hc

omit [Scalar α] in
theorem sidePart?_eq (side : Side) {x : List α} (hx : x.length = q.dims.nc) :
    q.sidePart? side x = some (side.part q.dims x) :=
  if_pos (hx ▸ side.offset_add_length_le hc)

theorem multipliers?_eq (hlam : q.dims.nc = it.lam.length) (low up : Side) (h : low.length q.dims = up.length q.dims) :
    q.multipliers? it low up = some (q.multipliers it low up) := by
  rw [multipliers?, sidePart?_eq hc low hlam.symm, sidePart?_eq hc up hlam.symm]
  refine if_pos ?_
  rw [up.length_part hc hlam.symm, low.length_part hc hlam.symm, h]

theorem inequalityRows?_eq (hd : q.dims.nc = q.d.length) (ht : q.dims.nc = it.t.length) (side : Side) {negated : List α}
    (hn : negated.length = side.length q.dims) :
    q.inequalityRows? it side negated = some (q.inequalityRows it side negated) := by
  have hd' := side.length_part hc hd.symm
  have ht' := side.length_part hc ht.symm
  have hinner (sign : α) : axpby? sign (side.part q.dims q.d) 1 negated = some (axpby sign (side.part q.dims q.d) 1 negated) :=
    if_pos (hn.trans hd'.symm)
  simp only [inequalityRows?, sidePart?_eq hc side ht.symm, sidePart?_eq hc side hd.symm, hinner, Option.bind_eq_bind,
    Option.bind_some]
  exact if_pos (((Linear.length_axpby (hd'.trans hn.symm)).trans hn).trans ht'.symm)

end Counted

theorem products?_eq (hlam : q.dims.nc = it.lam.length) (ht : q.dims.nc = it.t.length) :
    mulDot? q.dims.nc it.lam it.t = some (mulDot it.lam it.t) := if_pos ⟨hlam, ht⟩

theorem complementarity?_eq (hm : q.dims.nc = q.m.length) (hlam : q.dims.nc = it.lam.length)
    (ht : q.dims.nc = it.t.length) : axpby? (-1) q.m 1 (mulDot it.lam it.t).1 = some (q.complementarity it) :=
  if_pos (((Linear.length_mul (hlam.symm.trans ht)).trans ht.symm).trans hm)

/-! ### How long the residuals are -/

theorem length_stationarity (h : q.Fits it) : (q.stationarity it).length = q.dims.nv := by
  have hg := h.g
  have hl : (scatterAdd 1 (q.multipliers it .lb .ub) q.idxb (q.costs it)).length = q.dims.nv := by
    rw [Linear.length_scatterAdd, q.length_costs it (h.A_cols.trans hg), hg]
  rw [stationarity, Matrix.length_product h.Ct_filled _ _ _ (Nat.le_of_eq (hl.trans h.Ct_rows.symm)), hl]

theorem length_equations (h : q.Fits it) : (q.equations it).length = q.dims.ne := by
  rw [equations, Matrix.length_product h.A_filled _ _ _ (Nat.le_of_eq (h.b.symm.trans h.A_rows.symm)), h.b]

theorem length_negatedValues (h : q.Fits it) (side : Side) :
    (q.negatedValues it side).length = side.length q.dims := by
  cases side with
  | lb | ub => exact (Linear.length_gather ..).trans h.idxb.symm
  | lg | ug =>
    exact (Matrix.length_transposedProduct _ _ _ (by rw [List.length_replicate, h.Ct_cols])).trans List.length_replicate

theorem length_inequalityRows (h : q.Fits it) (side : Side) :
    (q.inequalityRows it side (q.negatedValues it side)).length = side.length q.dims := by
  have hd := side.length_part h.counted h.d.symm
  have ht := side.length_part h.counted h.t.symm
  have hv := length_negatedValues h side
  have hin : ∀ a : α, (axpby a (side.part q.dims q.d) 1 (q.negatedValues it side)).length = side.length q.dims :=
    fun a => (Linear.length_axpby (by omega)).trans hv
  rw [inequalityRows, Linear.length_axpby (by rw [hin]; omega), hin]

theorem length_inequalities (h : q.Fits it) : (q.inequalities it).length = q.dims.nc := by
  simp only [inequalities, List.length_append, length_inequalityRows h, Side.length, h.counted.nc_eq]
  omega

theorem length_complementarity (h : q.Fits it) : (q.complementarity it).length = q.dims.nc := by
  have hl := Linear.length_mul (h.lam.symm.trans h.t)
  rw [complementarity, mulDot, Linear.length_axpby (by rw [hl, ← h.m, h.t]), hl, h.t]

/-! ### Where everything fits -/

theorem costs?_eq (h : q.Fits it) : q.costs? it = some (q.costs it) := by
  have hg := h.g
  have hH : q.H.cols ≤ q.H.rows ∧ q.H.cols = it.v.length ∧ q.H.cols = q.g.length :=
    ⟨h.H_cols ▸ h.H_rows, h.H_cols.trans h.v, h.H_cols.trans hg⟩
  have hA : q.A.rows = it.pi.length ∧ q.A.cols = (q.H.symmetricProduct .lower 1 it.v 1 q.g).length :=
    ⟨h.A_rows.trans h.pi, by rw [Matrix.length_symmetricProduct, h.A_cols, hg]⟩
  rw [costs?, Matrix.filled?_eq h.H_filled, Option.bind_eq_bind, Option.bind_some, Matrix.symmetricProduct?, if_pos hH,
    Option.bind_eq_bind, Option.bind_some, Matrix.filled?_eq h.A_filled]
  exact if_pos hA

theorem stationarity?_eq (h : q.Fits it) : q.stationarity? it = some (q.stationarity it) := by
  have hcosts : (q.costs it).length = q.dims.nv := (q.length_costs it (h.A_cols.trans h.g)).trans h.g.symm
  have hbounds : (q.multipliers it .lb .ub).length = q.dims.nb := q.length_multipliers h.counted h.lam .lb .ub rfl
  have hgeneral : (q.multipliers it .lg .ug).length = q.dims.ng := q.length_multipliers h.counted h.lam .lg .ug rfl
  have hscatter : scatterAdd? 1 (q.multipliers it .lb .ub) q.idxb (q.costs it) =
      some (scatterAdd 1 (q.multipliers it .lb .ub) q.idxb (q.costs it)) := by
    refine if_pos ⟨hbounds.trans h.idxb, ?_⟩
    simpa only [List.all_eq_true, decide_eq_true_eq, hcosts] using h.idxb_lt
  simp only [stationarity?, costs?_eq h, multipliers?_eq h.counted h.lam .lb .ub rfl,
    multipliers?_eq h.counted h.lam .lg .ug rfl, hscatter, Matrix.filled?_eq h.Ct_filled, Option.bind_eq_bind,
    Option.bind_some]
  refine if_pos ⟨h.Ct_cols.trans hgeneral.symm, ?_⟩
  rw [Linear.length_scatterAdd, hcosts]
  exact h.Ct_rows

theorem equations?_eq (h : q.Fits it) : q.equations? it = some (q.equations it) := by
  rw [equations?, Matrix.filled?_eq h.A_filled]
  exact if_pos ⟨h.A_cols.trans h.v, h.A_rows.trans h.b⟩

theorem gatherBounds?_eq (h : q.Fits it) : gather? q.dims.nb (-1) it.v q.idxb = some (gather (-1) it.v q.idxb) := by
  refine if_pos ⟨h.idxb, ?_⟩
  simpa only [List.all_eq_true, decide_eq_true_eq, ← h.v] using h.idxb_lt

/-- The values of the general constraints, over rows that are as many. -/
theorem generalValues?_eq (h : q.Fits it) {room : List α} (hroom : room.length = q.dims.ng) :
    q.Ct.transposedProduct? (-1) it.v 0 room = some (q.Ct.transposedProduct (-1) it.v 0 room) :=
  if_pos ⟨h.Ct_rows.trans h.v, h.Ct_cols.trans hroom.symm⟩

theorem inequalities?_eq (h : q.Fits it) : q.inequalities? it = some (q.inequalities it) := by
  have hrows (side : Side) := inequalityRows?_eq h.counted h.d h.t side (length_negatedValues h side)
  simp only [negatedValues] at hrows
  simp only [inequalities?, gatherBounds?_eq h, Matrix.filled?_eq h.Ct_filled, generalValues?_eq h List.length_replicate,
    hrows .lb, hrows .lg, hrows .ub, hrows .ug, Option.bind_eq_bind, Option.bind_some]
  rfl

/-- Where everything fits, there are residuals. -/
theorem residuals?_eq (h : q.Fits it) : q.residuals? it = some (q.residuals it) := by
  rw [residuals?, products?_eq h.lam h.t, Option.bind_eq_bind, Option.bind_some, stationarity?_eq h, equations?_eq h,
    inequalities?_eq h, complementarity?_eq h.m h.lam h.t]
  rfl

/-- The multipliers of the last side are there only if a word counts the rows. -/
theorem counted_of_multipliers? {l : List α} (hlam : q.dims.nc = it.lam.length)
    (h : q.multipliers? it .lg .ug = some l) : q.dims.Counted := by
  obtain ⟨_, -, h⟩ := Option.bind_eq_some_iff.mp h
  obtain ⟨_, h, -⟩ := Option.bind_eq_some_iff.mp h
  have hend := (Option.ite_none_right_eq_some.mp h).1
  simp only [Side.offset, Side.length, ← hlam] at hend
  exact DenseDims.counted_of_le (by omega)

/-- The stationarity residual alone asks for every shape. -/
theorem fits_of_stationarity? {r : List α} (hd : q.checkData = .ok ()) (hi : checkIterate q.dims it = .ok ())
    (h : q.stationarity? it = some r) : q.Fits it := by
  obtain ⟨hg, hb, hidx, hlt, hdl, hm, hHd, hAd, hCd⟩ := checkData_eq_ok.mp hd
  obtain ⟨hv, hpi, hlam, ht⟩ := checkIterate_eq_ok.mp hi
  have hc : q.dims.Counted := by
    simp only [stationarity?, Option.bind_eq_bind, Option.bind_eq_some_iff] at h
    obtain ⟨_, -, _, -, _, -, _, -, _, hgeneral, -⟩ := h
    exact counted_of_multipliers? hlam hgeneral
  simp only [stationarity?, costs?, multipliers?_eq hc hlam .lb .ub rfl, multipliers?_eq hc hlam .lg .ug rfl,
    Matrix.symmetricProduct?, Matrix.transposedProduct?, Matrix.product?, scatterAdd?, Option.bind_eq_bind,
    Option.bind_eq_some_iff, Option.ite_none_right_eq_some, Matrix.filled?_eq_some, Option.some.injEq, and_assoc,
    exists_eq_left', exists_and_left] at h
  obtain ⟨hHf, hr, hHv, -, hAf, hAp, hAg, -, -, hCf, hCg, hCr, -⟩ := h
  rw [Matrix.length_symmetricProduct] at hAg
  have hcosts := q.length_costs it hAg
  have hmult : (q.multipliers it .lg .ug).length = q.dims.ng := q.length_multipliers hc hlam .lg .ug rfl
  simp only [costs] at hcosts
  rw [hmult] at hCg
  rw [Linear.length_scatterAdd, hcosts] at hCr
  exact {
    counted := hc, g := hg, b := hb, idxb := hidx, idxb_lt := hlt, d := hdl, m := hm
    H_count := hHd, A_count := hAd, Ct_count := hCd
    H_rows := by omega
    H_cols := by omega
    H_filled := hHf
    A_rows := by omega
    A_cols := by omega
    A_filled := hAf
    Ct_rows := by omega
    Ct_cols := hCg
    Ct_filled := hCf
    v := hv, pi := hpi, lam := hlam, t := ht }

theorem fits_of_residuals? {r : Residuals α} (hd : q.checkData = .ok ()) (hi : checkIterate q.dims it = .ok ())
    (h : q.residuals? it = some r) : q.Fits it := by
  rcases Option.bind_eq_some_iff.mp h with ⟨_, -, h⟩
  rcases Option.bind_eq_some_iff.mp h with ⟨_, hs, -⟩
  exact fits_of_stationarity? hd hi hs

end Update

end DenseQp

namespace DenseWorkspace

variable {α : Type} [Scalar α]

theorem update_eq_ok {w w' : DenseWorkspace α} {q : DenseQp α} {it : DenseIterate α} :
    w.update q it = .ok w' ↔ w.dims = q.dims ∧ q.Fits it ∧ w' = { w with residuals := q.residuals it } := by
  rw [update, Attempt.bind_eq_ok, Attempt.check_eq_ok, DenseQp.check_eq_ok, Attempt.bind_eq_ok]
  constructor
  · intro h
    rcases h with ⟨⟨hw, hd, hi⟩, r, hr, h⟩
    have hr := Attempt.require_eq_ok.mp hr
    have hf := DenseQp.fits_of_residuals? hd hi hr
    rw [DenseQp.residuals?_eq hf] at hr
    cases hr
    cases h
    exact ⟨hw, hf, rfl⟩
  · intro h
    rcases h with ⟨hw, hf, rfl⟩
    exact ⟨⟨hw, DenseQp.checkData_eq_ok.mpr ⟨hf.g, hf.b, hf.idxb, hf.idxb_lt, hf.d, hf.m, hf.H_count, hf.A_count,
        hf.Ct_count⟩, DenseQp.checkIterate_eq_ok.mpr ⟨hf.v, hf.pi, hf.lam, hf.t⟩⟩,
      _, Attempt.require_eq_ok.mpr (DenseQp.residuals?_eq hf), rfl⟩

end DenseWorkspace

end HorizonQp
