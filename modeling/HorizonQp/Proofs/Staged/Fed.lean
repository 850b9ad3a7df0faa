/-
  HorizonQp.Proofs.Staged.Fed — stages that get what their kernels need.

  When the stages lead to each other, their index arrays point inside and the iterate
  covers them (`Suits`), the walk feeds every stage what belongs to it (`Suits.first`,
  `Stage.Fed`). Then whatever the stage cuts out of its vectors is there and the operands of
  every kernel match, so the stage has residuals (`Stage.Fed.residuals?_eq`) and so have all
  of them (`residualsFrom?_eq`).
-/

import HorizonQp.Proofs.Memory.Sizes
import HorizonQp.Proofs.Staged.Kernel

namespace HorizonQp

open Linear (Matrix axpby gather scatterAdd mul axpby? gather? scatterAdd? mulDot?)

variable {α : Type}

/-! ## Stages that lead to each other -/

/-- The step of a stage leads to the first of the stages behind it, if there is one. -/
def Stage.LeadsTo (s : Stage α) : List (Stage α) → Prop
  | [] => s.step = none
  | next :: _ => ∃ step, s.step = some step ∧ step.nu = next.nu ∧ step.b.length = next.nx

/-- Every stage is in shape and leads to the next one. -/
def Linked : List (Stage α) → Prop
  | [] => True
  | s :: stages => s.Shaped ∧ s.LeadsTo stages ∧ Linked stages

theorem shaped_of_linked {stages : List (Stage α)} (h : Linked stages) : ∀ s ∈ stages, s.Shaped := by
  induction stages with
  | nil => exact nofun
  | cons s stages ih =>
    intro s' hs'
    rcases List.mem_cons.mp hs' with rfl | hs'
    · exact h.1
    · exact ih h.2.2 s' hs'

/-- The vectors of the iterate cover the stages. -/
structure Sized (stages : List (Stage α)) (it : Iterate α) : Prop where
  ux : it.ux.length = total (stages.map Stage.nv)
  pi : it.pi.length = total (stages.map Stage.ne)
  lam : it.lam.length = total (stages.map Stage.nc)
  t : it.t.length = total (stages.map Stage.nc)

theorem head_le {n : Stage α → Nat} {s : Stage α} {stages : List (Stage α)} {len : Nat}
    (h : len = total ((s :: stages).map n)) : n s ≤ len := by
  rw [List.map_cons, total_cons] at h
  omega

namespace Sized

variable {s : Stage α} {stages : List (Stage α)} {it : Iterate α} (h : Sized (s :: stages) it)
include h

theorem rest : Sized stages (s.rest it) := by
  rcases h with ⟨hux, hpi, hlam, ht⟩
  rw [List.map_cons, total_cons] at hux hpi hlam ht
  constructor <;> simp only [Stage.rest, List.length_drop] <;> omega

theorem ux_le : s.nv ≤ it.ux.length := head_le h.ux

theorem pi_le : s.ne ≤ it.pi.length := head_le h.pi

theorem lam_le : s.nc ≤ it.lam.length := head_le h.lam

theorem t_le : s.nc ≤ it.t.length := head_le h.t

end Sized

/-- The inputs of the first stage. -/
def firstInputs (stages : List (Stage α)) : Nat := stages.head?.elim 0 Stage.nu

/-- The multipliers of the step into the first stage are as many as its states. -/
def Enters (stages : List (Stage α)) (entering : Option (List α)) : Prop :=
  ∀ s ∈ stages.head?, ∀ prev ∈ entering, prev.length = s.nx

/-- No step leads into the first stage of a problem. -/
theorem enters_none (stages : List (Stage α)) : Enters stages none := fun _ _ _ hprev => by cases hprev

section Steps

variable {s : Stage α} {stages : List (Stage α)}

theorem step_inputs (h : s.LeadsTo stages) : s.step.elim 0 Step.nu = firstInputs stages := by
  cases stages with
  | nil => rw [show s.step = none from h]; rfl
  | cons next stages =>
    rcases h with ⟨step, hst, hnu, -⟩
    rw [hst]
    exact hnu

theorem enters_rest (h : s.LeadsTo stages) {pi : List α} (hpi : s.ne ≤ pi.length) :
    Enters stages (some (pi.take s.ne)) := by
  intro next hnext prev hprev
  cases stages with
  | nil => cases hnext
  | cons _ stages =>
    cases hnext
    cases hprev
    rcases h with ⟨step, hst, -, hnx⟩
    have hne : s.ne = step.b.length := by simp only [Stage.ne, hst]
    rw [List.length_take, Nat.min_eq_left hpi, hne, hnx]

/-- The states that a step leads to are among the inputs and states behind its stage. -/
theorem next_inside (h : s.LeadsTo stages) :
    ∀ step ∈ s.step, step.nu + step.b.length ≤ total (stages.map Stage.nux) := by
  intro step hst
  cases stages with
  | nil =>
    rw [show s.step = none from h] at hst
    cases hst
  | cons next stages =>
    rcases h with ⟨step', hst', hnu, hnx⟩
    rw [hst'] at hst
    cases hst
    rw [hnu, hnx]
    exact Nat.le_add_right ..

theorem total_nux_le (stages : List (Stage α)) : total (stages.map Stage.nux) ≤ total (stages.map Stage.nv) := by
  induction stages with
  | nil => exact Nat.le_refl _
  | cons s stages ih =>
    rw [List.map_cons, List.map_cons, total_cons, total_cons, Stage.nv]
    omega

end Steps

/-- The stages lead to each other, their index arrays point inside, and the iterate covers them. -/
structure Suits (stages : List (Stage α)) (it : Iterate α) : Prop where
  linked : Linked stages
  idxb : ∀ s ∈ stages, ∀ k ∈ s.idxb, k < s.nux
  idxs : ∀ s ∈ stages, ∀ k ∈ s.idxs, k < s.rows
  sized : Sized stages it

/-- A stage, its part `it` of an iterate, the multipliers of the step into it and the
    variables behind it go together. -/
structure Stage.Fed (s : Stage α) (it : Iterate α) (entering : Option (List α)) (after : List α) : Prop where
  shaped : s.Shaped
  idxb : ∀ k ∈ s.idxb, k < s.nux
  idxs : ∀ k ∈ s.idxs, k < s.rows
  ux : it.ux.length = s.nv
  pi : it.pi.length = s.ne
  lam : it.lam.length = s.nc
  t : it.t.length = s.nc
  entering : ∀ prev ∈ entering, prev.length = s.nx
  after : ∀ step ∈ s.step, step.nu + step.b.length ≤ after.length

namespace Suits

variable {s : Stage α} {stages : List (Stage α)} {it : Iterate α} (h : Suits (s :: stages) it)
include h

theorem rest : Suits stages (s.rest it) where
  linked := h.linked.2.2
  idxb s' hs' := h.idxb s' (List.mem_cons_of_mem _ hs')
  idxs s' hs' := h.idxs s' (List.mem_cons_of_mem _ hs')
  sized := h.sized.rest

omit h in
/-- What suits the stages depends on the lengths of the iterate alone. -/
theorem resized {stages : List (Stage α)} (h : Suits stages it) {it' : Iterate α} (hux : it'.ux.length = it.ux.length)
    (hpi : it'.pi.length = it.pi.length) (hlam : it'.lam.length = it.lam.length) (ht : it'.t.length = it.t.length) :
    Suits stages it' where
  linked := h.linked
  idxb := h.idxb
  idxs := h.idxs
  sized := ⟨hux.trans h.sized.ux, hpi.trans h.sized.pi, hlam.trans h.sized.lam, ht.trans h.sized.t⟩

theorem enters : Enters stages (some (it.pi.take s.ne)) := enters_rest h.linked.2.1 h.sized.pi_le

theorem first {entering : Option (List α)} (he : Enters (s :: stages) entering) :
    s.Fed (s.first it) entering (it.ux.drop s.nv) where
  shaped := h.linked.1
  idxb := h.idxb s List.mem_cons_self
  idxs := h.idxs s List.mem_cons_self
  ux := List.length_take_of_le h.sized.ux_le
  pi := List.length_take_of_le h.sized.pi_le
  lam := List.length_take_of_le h.sized.lam_le
  t := List.length_take_of_le h.sized.t_le
  entering := he s rfl
  after step hst := by
    have hrest : (it.ux.drop s.nv).length = total (stages.map Stage.nv) := h.sized.rest.ux
    rw [hrest]
    exact Nat.le_trans (next_inside h.linked.2.1 step hst) (total_nux_le stages)

end Suits

/-! ## What a stage cuts out of its vectors -/

namespace Stage

theorem run?_eq {x : List α} {first len : Nat} (h : first + len ≤ x.length) : run? x first len = some (run x first len) :=
  if_pos h

/-- A run from the front. -/
theorem run?_front {x : List α} {n : Nat} (h : n ≤ x.length) : run? x 0 n = some (x.take n) :=
  run?_eq (by omega)

/-- A run to the end. -/
theorem run?_back {x : List α} {k n : Nat} (h : x.length = k + n) : run? x k n = some (x.drop k) := by
  rw [run?_eq (Nat.le_of_eq h.symm), run_to_end h]

variable {s : Stage α}

theorem variables?_eq {v : List α} (hv : v.length = s.nv) : s.variables? v = some ⟨s.ux v, s.sl v, s.su v⟩ := by
  have hnv : s.nv = s.nux + 2 * s.ns := rfl
  rw [variables?, run?_front (by omega), run?_eq (by omega), run?_eq (by omega)]
  rfl

theorem rows?_eq {x : List α} (hx : x.length = s.nc) : s.rows? x = some ⟨s.lower x, s.upper x, s.ls x, s.us x⟩ := by
  have hnc : s.nc = 2 * (s.rows + s.ns) := rfl
  rw [rows?, run?_front (by omega), run?_eq (by omega), run?_eq (by omega), run?_eq (by omega)]
  rfl

theorem bounds?_eq {side : List α} (h : side.length = s.rows) : s.bounds? side = some (s.bounds side) :=
  run?_front (by rw [h, rows]; omega)

theorem general?_eq {side : List α} (h : side.length = s.rows) : s.general? side = some (s.general side) := run?_back h

theorem first?_eq {stages : List (Stage α)} {it : Iterate α} (h : Sized (s :: stages) it) :
    s.first? it = some (s.first it) := by
  rw [first?, run?_front h.ux_le, run?_front h.pi_le, run?_front h.lam_le, run?_front h.t_le]
  rfl

/-! ## Kernels with matching operands -/

theorem axpby?_eq [Add α] [Mul α] {a b : α} {x y : List α} (h : y.length = x.length) :
    axpby? a x b y = some (axpby a x b y) := if_pos h

theorem shift?_eq (hs : s.Shaped) (hi : ∀ k ∈ s.idxs, k < s.rows) (move : α → α → α) {slack side : List α}
    (hslack : slack.length = s.ns) (hside : side.length = s.rows) :
    s.shift? move slack side = some (s.shift move slack side) := by
  refine if_pos ⟨Nat.le_of_eq (by rw [hs.idxs, hslack]), ?_⟩
  simpa only [List.all_eq_true, decide_eq_true_eq, hside] using hi

variable [Scalar α]

theorem leave?_eq (hs : s.Shaped) {pi r : List α} (hpi : pi.length = s.ne) (hr : r.length = s.nux) :
    s.leave? pi r = some (s.leave pi r) := by
  unfold leave? leave
  cases hst : s.step with
  | none => rfl
  | some step =>
    have hne : s.ne = step.b.length := by simp only [ne, hst]
    have hc := hs.BAbt_cols step hst
    have hrows := hs.BAbt_rows step hst
    exact if_pos ⟨by omega, by omega⟩

theorem enter?_eq {entering : Option (List α)} (he : ∀ prev ∈ entering, prev.length = s.nx) {r : List α}
    (hr : r.length = s.nux) : s.enter? entering r = some (s.enter entering r) := by
  cases entering with
  | none => rfl
  | some prev =>
    have hnux : s.nux = s.nu + s.nx := rfl
    have hback : (r.drop s.nu).length = prev.length := by
      rw [List.length_drop, hr, he prev rfl]
      omega
    simp only [enter?, run?_front (x := r) (n := s.nu) (by omega), run?_back (hr.trans hnux), axpby?_eq hback,
      Option.bind_eq_bind, Option.bind_some]
    rfl

theorem costs?_eq (hs : s.Shaped) {v : List α} (hv : v.length = s.nv) :
    s.RSQrq.symmetricProduct? .lower 1 (s.ux v) 1 (s.ux s.rqz) = some (s.costs v) := by
  refine if_pos ?_
  rw [hs.RSQrq_rows, hs.RSQrq_cols, length_ux hv, length_ux hs.rqz]
  exact ⟨Nat.le_succ _, rfl, rfl⟩

section Multipliers

variable (hs : s.Shaped) {lam r : List α} (hlam : lam.length = s.nc) (hr : r.length = s.nux)
include hs hlam hr

theorem scatterBounds?_eq (hi : ∀ k ∈ s.idxb, k < s.nux) :
    scatterAdd? 1 (s.boundsNet lam) s.idxb r = some (scatterAdd 1 (s.boundsNet lam) s.idxb r) := by
  refine if_pos ⟨(length_boundsNet hlam).trans hs.idxb.symm, ?_⟩
  simpa only [List.all_eq_true, decide_eq_true_eq, hr] using hi

theorem generalProduct?_eq :
    s.DCt.product? 1 (s.generalNet lam) 1 r = some (s.DCt.product 1 (s.generalNet lam) 1 r) :=
  if_pos ⟨hs.DCt_cols.trans (length_generalNet hlam).symm, hs.DCt_rows.trans hr.symm⟩

end Multipliers

theorem stationarity?_eq (hs : s.Shaped) (hi : ∀ k ∈ s.idxb, k < s.nux) {v pi lam : List α} (hv : v.length = s.nv)
    (hpi : pi.length = s.ne) {entering : Option (List α)} (he : ∀ prev ∈ entering, prev.length = s.nx)
    (hlam : lam.length = s.nc) :
    s.stationarity? (s.ux v) (s.ux s.rqz) pi entering ⟨s.lower lam, s.upper lam, s.ls lam, s.us lam⟩ =
      some (s.stationarity v pi entering lam) := by
  have hl := length_lower hlam
  have hu := length_upper hlam
  have hr := length_enter he (length_leave hs pi (length_costs hs v))
  have hbounds : axpby? 1 (s.bounds (s.lower lam)) (-1) (s.bounds (s.upper lam)) = some (s.boundsNet lam) :=
    axpby?_eq ((length_bounds hu).trans (length_bounds hl).symm)
  have hgeneral : axpby? 1 (s.general (s.lower lam)) (-1) (s.general (s.upper lam)) = some (s.generalNet lam) :=
    axpby?_eq ((length_general hu).trans (length_general hl).symm)
  simp only [stationarity?, costs?_eq hs hv, leave?_eq hs hpi (length_costs hs v),
    enter?_eq he (length_leave hs pi (length_costs hs v)), bounds?_eq hl, bounds?_eq hu, hbounds,
    scatterBounds?_eq hs hlam hr hi, general?_eq hl, general?_eq hu, hgeneral, Option.bind_eq_bind, Option.bind_some]
  exact generalProduct?_eq hs hlam ((Linear.length_scatterAdd ..).trans hr)

theorem gatherSide?_eq (hs : s.Shaped) (hi : ∀ k ∈ s.idxs, k < s.rows) {side : List α} (hside : side.length = s.rows) :
    gather? s.ns 1 side s.idxs = some (gather 1 side s.idxs) := by
  refine if_pos ⟨hs.idxs.symm, ?_⟩
  simpa only [List.all_eq_true, decide_eq_true_eq, hside] using hi

theorem slackStationarity?_eq (hs : s.Shaped) (hi : ∀ k ∈ s.idxs, k < s.rows) {side own z : List α} (Z slack : List α)
    (hside : side.length = s.rows) (hown : own.length = s.ns) (hz : z.length = s.ns) :
    s.slackStationarity? side own z Z slack = some (s.slackStationarity side own z Z slack) := by
  have hg : (gather 1 side s.idxs).length = s.ns := (Linear.length_gather ..).trans hs.idxs
  have hin := (Linear.length_axpby (a := (1 : α)) (b := 1) (hown.trans hg.symm)).trans hg
  simp only [slackStationarity?, gatherSide?_eq hs hi hside, axpby?_eq (hg.trans hown.symm), axpby?_eq (hin.trans hz.symm),
    Option.bind_eq_bind, Option.bind_some]
  rfl

theorem equations?_eq (hs : s.Shaped) {v after : List α} (hv : v.length = s.nv)
    (hafter : ∀ step ∈ s.step, step.nu + step.b.length ≤ after.length) :
    s.equations? (s.ux v) after =
      some (match s.step with
        | some step => s.equations step v after
        | none => []) := by
  unfold equations?
  cases hst : s.step with
  | none => rfl
  | some step =>
    have hc := hs.BAbt_cols step hst
    have hrows := hs.BAbt_rows step hst
    have hux := length_ux hv
    have hproduct : step.BAbt.leadingTransposedProduct? (-1) (s.ux v) (-1) step.b =
        some (step.BAbt.transposedProduct (-1) (s.ux v) (-1) step.b) := if_pos ⟨hc, by omega⟩
    have hlen := (Matrix.length_transposedProduct (A := step.BAbt) (-1) (s.ux v) (-1) hc).trans
      (length_run (hafter step hst)).symm
    simp only [run?_eq (hafter step hst), hproduct, axpby?_eq hlen, Option.bind_eq_bind, Option.bind_some]
    rfl

theorem gatherBounds?_eq (hs : s.Shaped) (hi : ∀ k ∈ s.idxb, k < s.nux) {v : List α} (hv : v.length = s.nv) :
    gather? s.nb (-1) (s.ux v) s.idxb = some (gather (-1) (s.ux v) s.idxb) := by
  refine if_pos ⟨hs.idxb.symm, ?_⟩
  simpa only [List.all_eq_true, decide_eq_true_eq, length_ux hv] using hi

/-- The values of the general constraints, over rows that are as many. -/
theorem generalValues?_eq (hs : s.Shaped) {v : List α} (hv : v.length = s.nv) {room : List α} (hroom : room.length = s.ng) :
    s.DCt.transposedProduct? (-1) (s.ux v) 0 room = some (s.DCt.transposedProduct (-1) (s.ux v) 0 room) :=
  if_pos ⟨hs.DCt_rows.trans (length_ux hv).symm, hs.DCt_cols.trans hroom.symm⟩

theorem negatedValues?_eq (hs : s.Shaped) (hi : ∀ k ∈ s.idxb, k < s.nux) {v : List α} (hv : v.length = s.nv) :
    s.negatedValues? (s.ux v) = some (s.negatedValues v) := by
  simp only [negatedValues?, gatherBounds?_eq hs hi hv, generalValues?_eq hs hv List.length_replicate, Option.bind_eq_bind,
    Option.bind_some]
  rfl

theorem sideRows?_eq (hs : s.Shaped) (hi : ∀ k ∈ s.idxs, k < s.rows) (sign : α) (move : α → α → α)
    {slack negated d t : List α} (hslack : slack.length = s.ns) (hn : negated.length = s.rows) (hd : d.length = s.rows)
    (ht : t.length = s.rows) :
    s.sideRows? sign move slack negated d t = some (axpby sign t 1 (axpby sign d 1 (s.shift move slack negated))) := by
  have hshift := (length_shift (s := s) move slack negated).trans hn
  have hin := (Linear.length_axpby (a := sign) (b := 1) (hd.trans hshift.symm)).trans hshift
  simp only [sideRows?, shift?_eq hs hi move hslack hn, axpby?_eq (hshift.trans hd.symm), axpby?_eq (hin.trans ht.symm),
    Option.bind_eq_bind, Option.bind_some]

theorem ownRows?_eq {slack d t : List α} (hslack : slack.length = s.ns) (hd : d.length = s.ns) (ht : t.length = s.ns) :
    ownRows? slack d t = some (axpby 1 t 1 (axpby (-1) slack 1 d)) := by
  have hin := (Linear.length_axpby (a := (-1 : α)) (b := 1) (hslack.trans hd.symm)).trans hd
  simp only [ownRows?, axpby?_eq (hd.trans hslack.symm), axpby?_eq (hin.trans ht.symm), Option.bind_eq_bind,
    Option.bind_some]

theorem inequalities?_eq (hs : s.Shaped) (hb : ∀ k ∈ s.idxb, k < s.nux) (hi : ∀ k ∈ s.idxs, k < s.rows) {v t : List α}
    (hv : v.length = s.nv) (ht : t.length = s.nc) :
    s.inequalities? ⟨s.ux v, s.sl v, s.su v⟩ ⟨s.lower s.d, s.upper s.d, s.ls s.d, s.us s.d⟩
        ⟨s.lower t, s.upper t, s.ls t, s.us t⟩ = some (s.inequalities v t) := by
  have hn := length_negatedValues hs v
  simp only [inequalities?, negatedValues?_eq hs hb hv,
    sideRows?_eq hs hi 1 (· - ·) (length_sl hv) hn (length_lower hs.d) (length_lower ht),
    sideRows?_eq hs hi (-1) (· + ·) (length_su hv) hn (length_upper hs.d) (length_upper ht),
    ownRows?_eq (length_sl hv) (length_ls hs.d) (length_ls ht), ownRows?_eq (length_su hv) (length_us hs.d) (length_us ht),
    Option.bind_eq_bind, Option.bind_some]
  rfl

/-! ## Residuals -/

/-- The residuals have as many entries as the stage has variables, equations and rows. -/
structure Holds (s : Stage α) (r : Residuals α) : Prop where
  stationarity : r.stationarity.length = s.nv
  equations : r.equations.length = s.ne
  inequalities : r.inequalities.length = s.nc
  complementarity : r.complementarity.length = s.nc

namespace Fed

variable {it : Iterate α} {entering : Option (List α)} {after : List α} (h : s.Fed it entering after)
include h

theorem length_products : (mul it.lam it.t).length = s.nc := (Linear.length_mul (h.lam.trans h.t.symm)).trans h.t

theorem holds (mu : α) : s.Holds (s.residuals it entering after mu) where
  stationarity := by
    rw [residuals, List.length_append, List.length_append, length_stationarity h.shaped _ _ _ h.entering,
      length_lowerSlackStationarity h.shaped h.ux h.lam, length_upperSlackStationarity h.shaped h.ux h.lam, nv]
    omega
  equations := by
    rw [residuals, ne]
    cases hst : s.step with
    | none => rfl
    | some step => exact length_equations h.shaped hst _ (h.after step hst)
  inequalities := length_inequalities h.shaped h.ux h.t
  complementarity := (Linear.length_axpby (h.shaped.m.trans h.length_products.symm)).trans h.length_products

/-- A stage that gets what its kernels need has residuals. -/
theorem residuals?_eq (gap : α) :
    s.residuals? it entering after gap =
      some (s.residuals it entering after (gap + Linear.sum (mul it.lam it.t))) := by
  have hs := h.shaped
  have hnv : s.nv = s.nux + 2 * s.ns := rfl
  have hZ := hs.Z
  have hrqz := hs.rqz
  have hlow : s.slackStationarity? (s.lower it.lam) (s.ls it.lam) (s.sl s.rqz) (s.Z.take s.ns) (s.sl it.ux) =
      some (s.lowerSlackStationarity it.ux it.lam) :=
    slackStationarity?_eq hs h.idxs _ _ (length_lower h.lam) (length_ls h.lam) (length_sl hrqz)
  have hup : s.slackStationarity? (s.upper it.lam) (s.us it.lam) (s.su s.rqz) (s.Z.drop s.ns) (s.su it.ux) =
      some (s.upperSlackStationarity it.ux it.lam) := by
    rw [upperSlackStationarity, ← run_to_end (x := s.rqz) (n := s.ns) (by omega)]
    exact slackStationarity?_eq hs h.idxs _ _ (length_upper h.lam) (length_us h.lam) (length_su hrqz)
  have hproducts : mulDot? s.nc it.lam it.t = some (mul it.lam it.t, Linear.sum (mul it.lam it.t)) :=
    if_pos ⟨h.lam.symm, h.t.symm⟩
  simp only [residuals?, variables?_eq h.ux, variables?_eq hrqz, rows?_eq h.lam, rows?_eq hs.d, rows?_eq h.t,
    stationarity?_eq hs h.idxb h.ux h.pi h.entering h.lam, run?_front (x := s.Z) (n := s.ns) (by omega),
    run?_back (x := s.Z) (k := s.ns) (n := s.ns) (by omega), hlow, hup, hproducts, equations?_eq hs h.ux h.after,
    inequalities?_eq hs h.idxb h.idxs h.ux h.t, axpby?_eq (h.length_products.trans hs.m.symm), Option.bind_eq_bind,
    Option.bind_some]
  rfl

end Fed

end Stage

section Walk

variable [Scalar α] {stages : List (Stage α)} {it : Iterate α} {entering : Option (List α)}

/-- Stages that the iterate suits have residuals. -/
theorem residualsFrom?_eq (h : Suits stages it) (he : Enters stages entering) (gap : α) :
    residualsFrom? stages it entering gap = some (residualsFrom stages it entering gap) := by
  induction stages generalizing it entering gap with
  | nil => rfl
  | cons s stages ih =>
    have hfront := (h.first he).residuals?_eq gap
    have hback := ih h.rest h.enters (gap + Linear.sum (mul (it.lam.take s.nc) (it.t.take s.nc)))
    simp only [residualsFrom?, Stage.first?_eq h.sized, hfront, Option.bind_eq_bind, Option.bind_some]
    show Option.bind (residualsFrom? stages (s.rest it) (some (it.pi.take s.ne))
      (gap + Linear.sum (mul (it.lam.take s.nc) (it.t.take s.nc)))) _ = _
    rw [hback]
    rfl

theorem stageResiduals?_eq (h : Suits stages it) : stageResiduals? stages it = some (stageResiduals stages it) := by
  rw [stageResiduals?, residualsFrom?_eq h (enters_none stages)]
  rfl

/-- The residuals have an entry for every variable, equation and row of the stages. -/
structure Covers (stages : List (Stage α)) (r : Residuals α) : Prop where
  stationarity : r.stationarity.length = total (stages.map Stage.nv)
  equations : r.equations.length = total (stages.map Stage.ne)
  inequalities : r.inequalities.length = total (stages.map Stage.nc)
  complementarity : r.complementarity.length = total (stages.map Stage.nc)

omit [Scalar α] in
theorem Covers.cons {s : Stage α} {front back : Residuals α} (hf : s.Holds front) (hb : Covers stages back) :
    Covers (s :: stages) (front.before back) := by
  constructor <;> simp only [Residuals.before, List.length_append, List.map_cons, total_cons]
  · rw [hf.stationarity, hb.stationarity]
  · rw [hf.equations, hb.equations]
  · rw [hf.inequalities, hb.inequalities]
  · rw [hf.complementarity, hb.complementarity]

theorem residualsFrom_covers (h : Suits stages it) (he : Enters stages entering) (gap : α) :
    Covers stages (residualsFrom stages it entering gap) := by
  induction stages generalizing it entering gap with
  | nil => exact ⟨rfl, rfl, rfl, rfl⟩
  | cons s stages ih => exact Covers.cons ((h.first he).holds gap) (ih h.rest h.enters _)

end Walk

end HorizonQp
