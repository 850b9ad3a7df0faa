/-
  HorizonQp.Proofs.Staged.Over — updates over what a workspace holds.

  An update works in the vectors of its workspace. It writes linear costs, right-hand sides
  and gathered rows over what they hold (`over?`) and goes on from there; the differences of
  multipliers go through two vectors that keep what the last stage left in them (`Scratch`);
  and the values of the general constraints are accumulated into old rows with the factor
  zero. `Workspace.updateOver` is an update done like this, vector by vector.

  Each vector is written before it is read, or read with a factor that the arithmetic takes
  for zero. So whatever was held, an update leaves what `Workspace.update` computes
  from nothing (`updateOver_eq`).
-/

import HorizonQp.Proofs.Linear.Reads
import HorizonQp.Proofs.Staged.Total

namespace HorizonQp

open Linear (Matrix axpby gather mul axpby? gather? scatterAdd? mulDot?)

variable {α : Type}

/-- The vector `xs`, written entry by entry over `room`, which is as long. -/
def over? (room xs : List α) : Option (List α) :=
  if room.length = xs.length then some (List.zipWith (fun _ x => x) room xs) else none

theorem over?_eq {room xs : List α} (h : room.length = xs.length) : over? room xs = some xs := by
  rw [over?, if_pos h]
  congr 1
  apply List.ext_getElem?
  intro k
  by_cases hk : k < xs.length
  · simp [hk, show k < room.length by omega]
  · simp [hk]

/-- Room for the differences of the multipliers of a stage. -/
structure Scratch (α : Type) where
  bounds : List α
  general : List α

/-- The scratch vectors take `nb` bounds and `ng` general constraints. -/
structure Scratch.Takes (scratch : Scratch α) (nb ng : Nat) : Prop where
  bounds : nb ≤ scratch.bounds.length
  general : ng ≤ scratch.general.length

/-! ## Stages -/

namespace Stage

/-- The residuals held at the front, which belong to the stage. -/
def own? (s : Stage α) (held : Residuals α) : Option (Residuals α) := do
  pure ⟨← run? held.stationarity 0 s.nv, ← run? held.equations 0 s.ne, ← run? held.inequalities 0 s.nc,
    ← run? held.complementarity 0 s.nc, held.mu⟩

/-- The residuals held behind them. -/
def others (s : Stage α) (held : Residuals α) : Residuals α :=
  ⟨held.stationarity.drop s.nv, held.equations.drop s.ne, held.inequalities.drop s.nc, held.complementarity.drop s.nc,
    held.mu⟩

variable [Scalar α]

/-- The difference of `x` and `y`, put into the front of a scratch vector, and the scratch vector with it. -/
def difference? (n : Nat) (x y scratch : List α) : Option (List α × List α) := do
  let r ← over? (← run? scratch 0 n) (← axpby? 1 x (-1) y)
  pure (r, r ++ scratch.drop n)

def stationarityOver? (s : Stage α) (room : List α) (scratch : Scratch α) (ux rq pi : List α)
    (entering : Option (List α)) (lam : Rows α) : Option (List α × Scratch α) := do
  let r ← s.RSQrq.symmetricProduct? .lower 1 ux 1 (← over? room rq)
  let r ← s.enter? entering (← s.leave? pi r)
  let (bounds, bounds') ← difference? s.nb (← s.bounds? lam.lower) (← s.bounds? lam.upper) scratch.bounds
  let r ← scatterAdd? 1 bounds s.idxb r
  let (general, general') ← difference? s.ng (← s.general? lam.lower) (← s.general? lam.upper) scratch.general
  pure (← s.DCt.product? 1 general 1 r, ⟨bounds', general'⟩)

def slackStationarityOver? (s : Stage α) (room side own z Z slack : List α) : Option (List α) := do
  let r ← over? room (← gather? s.ns 1 side s.idxs)
  let r ← axpby? 1 z 1 (← axpby? 1 own 1 r)
  pure (List.zipWith (fun r (Zj, xj) => r + Zj * xj) r (Z.zip slack))

def equationsOver? (s : Stage α) (room ux after : List α) : Option (List α) :=
  match s.step with
  | some step => do
    let r ← step.BAbt.leadingTransposedProduct? (-1) ux (-1) (← over? room step.b)
    axpby? 1 (← run? after step.nu step.b.length) 1 r
  | none => some room

/-- The negated values of the bounds, and those of the general constraints over what `room` held for them. -/
def negatedValuesOver? (s : Stage α) (room ux : List α) : Option (List α) := do
  let bounds ← over? (← s.bounds? room) (← gather? s.nb (-1) ux s.idxb)
  pure (bounds ++ (← s.DCt.transposedProduct? (-1) ux 0 (← s.general? room)))

def ownRowsOver? (room slack d t : List α) : Option (List α) := do
  axpby? 1 t 1 (← over? room (← axpby? (-1) slack 1 d))

def inequalitiesOver? (s : Stage α) (room : Rows α) (v : Variables α) (d t : Rows α) : Option (List α) := do
  let negated ← s.negatedValuesOver? room.lower v.ux
  let low ← s.sideRows? 1 (· - ·) v.sl negated d.lower t.lower
  let up ← s.sideRows? (-1) (· + ·) v.su (← over? room.upper negated) d.upper t.upper
  pure (low ++ up ++ (← ownRowsOver? room.ls v.sl d.ls t.ls) ++ (← ownRowsOver? room.us v.su d.us t.us))

/-- The residuals of a stage over those it holds. -/
def residualsOver? (s : Stage α) (held : Residuals α) (scratch : Scratch α) (it : Iterate α)
    (entering : Option (List α)) (after : List α) (gap : α) : Option (Residuals α × Scratch α) := do
  let v ← s.variables? it.ux
  let cost ← s.variables? s.rqz
  let lam ← s.rows? it.lam
  let room ← s.variables? held.stationarity
  let (stationarity, scratch) ← s.stationarityOver? room.ux scratch v.ux cost.ux it.pi entering lam
  let low ← s.slackStationarityOver? room.sl lam.lower lam.ls cost.sl (← run? s.Z 0 s.ns) v.sl
  let up ← s.slackStationarityOver? room.su lam.upper lam.us cost.su (← run? s.Z s.ns s.ns) v.su
  let equations ← s.equationsOver? held.equations v.ux after
  let inequalities ← s.inequalitiesOver? (← s.rows? held.inequalities) v (← s.rows? s.d) (← s.rows? it.t)
  let (products, sum) ← mulDot? held.complementarity.length it.lam it.t
  let complementarity ← axpby? (-1) s.m 1 (← over? held.complementarity products)
  pure (⟨stationarity ++ low ++ up, equations, inequalities, complementarity, gap + sum⟩, scratch)

/-! ### They leave what is computed from nothing -/

variable {s : Stage α}

theorem difference?_eq {n : Nat} {x y scratch : List α} (hx : x.length = n) (hy : y.length = n)
    (h : n ≤ scratch.length) :
    ∃ scratch', difference? n x y scratch = some (axpby 1 x (-1) y, scratch') ∧ scratch'.length = scratch.length := by
  have hlen : (axpby 1 x (-1) y).length = n := (Linear.length_axpby (hx.trans hy.symm)).trans hy
  have hroom : (scratch.take n).length = (axpby 1 x (-1) y).length := by rw [hlen, List.length_take_of_le h]
  refine ⟨axpby 1 x (-1) y ++ scratch.drop n, ?_, ?_⟩
  · simp only [difference?, run?_front h, axpby?_eq (hy.trans hx.symm), over?_eq hroom, Option.bind_eq_bind,
      Option.bind_some]
    rfl
  · rw [List.length_append, List.length_drop, hlen]
    omega

theorem stationarityOver?_eq (hs : s.Shaped) (hi : ∀ k ∈ s.idxb, k < s.nux) {room v pi lam : List α}
    (hroom : room.length = s.nux) {scratch : Scratch α} (ht : scratch.Takes s.nb s.ng) (hv : v.length = s.nv)
    (hpi : pi.length = s.ne) {entering : Option (List α)} (he : ∀ prev ∈ entering, prev.length = s.nx)
    (hlam : lam.length = s.nc) :
    ∃ scratch', s.stationarityOver? room scratch (s.ux v) (s.ux s.rqz) pi entering
        ⟨s.lower lam, s.upper lam, s.ls lam, s.us lam⟩ = some (s.stationarity v pi entering lam, scratch') ∧
      scratch'.bounds.length = scratch.bounds.length ∧ scratch'.general.length = scratch.general.length := by
  have hl := length_lower hlam
  have hu := length_upper hlam
  have hr := length_enter he (length_leave hs pi (length_costs hs v))
  obtain ⟨bounds', hbounds, hbl⟩ := difference?_eq (length_bounds hl) (length_bounds hu) ht.bounds
  obtain ⟨general', hgeneral, hgl⟩ := difference?_eq (length_general hl) (length_general hu) ht.general
  rw [← boundsNet] at hbounds
  rw [← generalNet] at hgeneral
  refine ⟨⟨bounds', general'⟩, ?_, hbl, hgl⟩
  simp only [stationarityOver?, over?_eq (hroom.trans (length_ux hs.rqz).symm), costs?_eq hs hv,
    leave?_eq hs hpi (length_costs hs v), enter?_eq he (length_leave hs pi (length_costs hs v)), bounds?_eq hl,
    bounds?_eq hu, hbounds, scatterBounds?_eq hs hlam hr hi, general?_eq hl, general?_eq hu, hgeneral,
    generalProduct?_eq hs hlam ((Linear.length_scatterAdd ..).trans hr), Option.bind_eq_bind, Option.bind_some]
  rfl

theorem slackStationarityOver?_eq (hs : s.Shaped) (hi : ∀ k ∈ s.idxs, k < s.rows) {room side own z : List α}
    (hroom : room.length = s.ns) (Z slack : List α) (hside : side.length = s.rows) (hown : own.length = s.ns)
    (hz : z.length = s.ns) :
    s.slackStationarityOver? room side own z Z slack = some (s.slackStationarity side own z Z slack) := by
  have hgather := gatherSide?_eq hs hi hside
  have hg : (gather 1 side s.idxs).length = s.ns := (Linear.length_gather ..).trans hs.idxs
  rw [← slackStationarity?_eq hs hi Z slack hside hown hz, slackStationarityOver?, slackStationarity?, hgather]
  simp only [over?_eq (hroom.trans hg.symm), Option.bind_eq_bind, Option.bind_some]

theorem equationsOver?_eq (hs : s.Shaped) {room v after : List α} (hroom : room.length = s.ne) (hv : v.length = s.nv)
    (hafter : ∀ step ∈ s.step, step.nu + step.b.length ≤ after.length) :
    s.equationsOver? room (s.ux v) after =
      some (match s.step with
        | some step => s.equations step v after
        | none => []) := by
  refine Eq.trans ?_ (equations?_eq hs hv hafter)
  unfold equationsOver? equations?
  cases hst : s.step with
  | none =>
    have hnone : room = [] := List.eq_nil_of_length_eq_zero (by rw [hroom, ne, hst])
    rw [hnone]
  | some step =>
    have hb : room.length = step.b.length := by rw [hroom, ne, hst]
    simp only [over?_eq hb, Option.bind_eq_bind, Option.bind_some]
    exact Option.bind_comm ..

/-- The factor zero keeps what the rows held out of the values of the general constraints. -/
theorem negatedValuesOver?_eq (hz : Scalar.isZero (0 : α) = true) (hs : s.Shaped) (hi : ∀ k ∈ s.idxb, k < s.nux)
    {room v : List α} (hroom : room.length = s.rows) (hv : v.length = s.nv) :
    s.negatedValuesOver? room (s.ux v) = some (s.negatedValues v) := by
  have hg : (gather (-1) (s.ux v) s.idxb).length = s.nb := (Linear.length_gather ..).trans hs.idxb
  have hgeneral : s.DCt.transposedProduct (-1) (s.ux v) 0 (s.general room) =
      s.DCt.transposedProduct (-1) (s.ux v) 0 (List.replicate s.ng 0) :=
    Matrix.transposedProduct_over hz _ _ ((length_general hroom).trans List.length_replicate.symm)
  simp only [negatedValuesOver?, bounds?_eq hroom, general?_eq hroom, gatherBounds?_eq hs hi hv,
    over?_eq ((length_bounds hroom).trans hg.symm), generalValues?_eq hs hv (length_general hroom), hgeneral,
    Option.bind_eq_bind, Option.bind_some]
  rfl

theorem ownRowsOver?_eq {room slack d t : List α} (hroom : room.length = s.ns) (hslack : slack.length = s.ns)
    (hd : d.length = s.ns) (ht : t.length = s.ns) :
    ownRowsOver? room slack d t = some (axpby 1 t 1 (axpby (-1) slack 1 d)) := by
  have hin := (Linear.length_axpby (a := (-1 : α)) (b := 1) (hslack.trans hd.symm)).trans hd
  simp only [ownRowsOver?, axpby?_eq (hd.trans hslack.symm), over?_eq (hroom.trans hin.symm),
    axpby?_eq (hin.trans ht.symm), Option.bind_eq_bind, Option.bind_some]

theorem inequalitiesOver?_eq (hz : Scalar.isZero (0 : α) = true) (hs : s.Shaped) (hb : ∀ k ∈ s.idxb, k < s.nux)
    (hi : ∀ k ∈ s.idxs, k < s.rows) {room v t : List α} (hroom : room.length = s.nc) (hv : v.length = s.nv)
    (ht : t.length = s.nc) :
    s.inequalitiesOver? ⟨s.lower room, s.upper room, s.ls room, s.us room⟩ ⟨s.ux v, s.sl v, s.su v⟩
        ⟨s.lower s.d, s.upper s.d, s.ls s.d, s.us s.d⟩ ⟨s.lower t, s.upper t, s.ls t, s.us t⟩ =
      some (s.inequalities v t) := by
  have hn := length_negatedValues hs v
  simp only [inequalitiesOver?, negatedValuesOver?_eq hz hs hb (length_lower hroom) hv,
    over?_eq ((length_upper hroom).trans hn.symm),
    sideRows?_eq hs hi 1 (· - ·) (length_sl hv) hn (length_lower hs.d) (length_lower ht),
    sideRows?_eq hs hi (-1) (· + ·) (length_su hv) hn (length_upper hs.d) (length_upper ht),
    ownRowsOver?_eq (length_ls hroom) (length_sl hv) (length_ls hs.d) (length_ls ht),
    ownRowsOver?_eq (length_us hroom) (length_su hv) (length_us hs.d) (length_us ht), Option.bind_eq_bind,
    Option.bind_some]
  rfl

variable {it : Iterate α} {entering : Option (List α)} {after : List α}

/-- A stage leaves its residuals, whatever it held. -/
theorem Fed.residualsOver?_eq (hz : Scalar.isZero (0 : α) = true) (h : s.Fed it entering after) {held : Residuals α}
    (hheld : s.Holds held) {scratch : Scratch α} (ht : scratch.Takes s.nb s.ng) (gap : α) :
    ∃ scratch', s.residualsOver? held scratch it entering after gap =
        some (s.residuals it entering after (gap + Linear.sum (mul it.lam it.t)), scratch') ∧
      scratch'.bounds.length = scratch.bounds.length ∧ scratch'.general.length = scratch.general.length := by
  have hs := h.shaped
  have hnv : s.nv = s.nux + 2 * s.ns := rfl
  have hZ := hs.Z
  have hrqz := hs.rqz
  have hg := hheld.stationarity
  obtain ⟨scratch', hstationarity, hlen⟩ := stationarityOver?_eq hs h.idxb (length_ux hg) ht h.ux h.pi h.entering h.lam
  refine ⟨scratch', ?_, hlen⟩
  have hlow : s.slackStationarityOver? (s.sl held.stationarity) (s.lower it.lam) (s.ls it.lam) (s.sl s.rqz)
      (s.Z.take s.ns) (s.sl it.ux) = some (s.lowerSlackStationarity it.ux it.lam) :=
    slackStationarityOver?_eq hs h.idxs (length_sl hg) _ _ (length_lower h.lam) (length_ls h.lam) (length_sl hrqz)
  have hup : s.slackStationarityOver? (s.su held.stationarity) (s.upper it.lam) (s.us it.lam) (s.su s.rqz)
      (s.Z.drop s.ns) (s.su it.ux) = some (s.upperSlackStationarity it.ux it.lam) := by
    rw [upperSlackStationarity, ← run_to_end (x := s.rqz) (n := s.ns) (by omega)]
    exact slackStationarityOver?_eq hs h.idxs (length_su hg) _ _ (length_upper h.lam) (length_us h.lam) (length_su hrqz)
  have hproducts : mulDot? held.complementarity.length it.lam it.t =
      some (mul it.lam it.t, Linear.sum (mul it.lam it.t)) :=
    if_pos ⟨hheld.complementarity.trans h.lam.symm, hheld.complementarity.trans h.t.symm⟩
  have hover := over?_eq (hheld.complementarity.trans h.length_products.symm)
  simp only [residualsOver?, variables?_eq h.ux, variables?_eq hrqz, variables?_eq hg, rows?_eq h.lam, rows?_eq hs.d,
    rows?_eq h.t, rows?_eq hheld.inequalities, hstationarity, run?_front (x := s.Z) (n := s.ns) (by omega),
    run?_back (x := s.Z) (k := s.ns) (n := s.ns) (by omega), hlow, hup,
    equationsOver?_eq hs hheld.equations h.ux h.after,
    inequalitiesOver?_eq hz hs h.idxb h.idxs hheld.inequalities h.ux h.t, hproducts, hover,
    axpby?_eq (h.length_products.trans hs.m.symm), Option.bind_eq_bind, Option.bind_some]
  rfl

end Stage

/-! ## All stages -/

section Walk

variable [Scalar α]

/-- The residuals of the stages over those held, and `gap` plus the products of multipliers and slacks. -/
def residualsOver? : List (Stage α) → Residuals α → Scratch α → Iterate α → Option (List α) → α → Option (Residuals α)
  | [], held, _, _, _, gap => some { held with mu := gap }
  | s :: stages, held, scratch, it, entering, gap => do
    let part ← s.first? it
    let (front, scratch) ← s.residualsOver? (← s.own? held) scratch part entering (it.ux.drop s.nv) gap
    pure (front.before (← residualsOver? stages (s.others held) scratch (s.rest it) (some part.pi) front.mu))

omit [Scalar α] in
theorem own?_eq {s : Stage α} {stages : List (Stage α)} {held : Residuals α} (h : Covers (s :: stages) held) :
    ∃ own, s.own? held = some own ∧ s.Holds own ∧ Covers stages (s.others held) := by
  obtain ⟨hg, hb, hd, hm⟩ := h
  rw [List.map_cons, total_cons] at hg hb hd hm
  refine ⟨⟨held.stationarity.take s.nv, held.equations.take s.ne, held.inequalities.take s.nc,
    held.complementarity.take s.nc, held.mu⟩, ?_, ?_, ?_⟩
  · rw [Stage.own?, Stage.run?_front (by omega), Stage.run?_front (by omega), Stage.run?_front (by omega),
      Stage.run?_front (by omega)]
    rfl
  · constructor <;> simp only [List.length_take] <;> omega
  · constructor <;> simp only [Stage.others, List.length_drop] <;> omega

/-- The stages leave their residuals, whatever was held. -/
theorem residualsOver?_eq (hz : Scalar.isZero (0 : α) = true) {stages : List (Stage α)} {held : Residuals α}
    {scratch : Scratch α} {it : Iterate α} {entering : Option (List α)} (h : Suits stages it)
    (he : Enters stages entering) (hheld : Covers stages held) (ht : ∀ s ∈ stages, scratch.Takes s.nb s.ng) (gap : α) :
    residualsOver? stages held scratch it entering gap = some (residualsFrom stages it entering gap) := by
  induction stages generalizing held scratch it entering gap with
  | nil =>
    simp only [residualsOver?, residualsFrom, List.eq_nil_of_length_eq_zero hheld.stationarity,
      List.eq_nil_of_length_eq_zero hheld.equations, List.eq_nil_of_length_eq_zero hheld.inequalities,
      List.eq_nil_of_length_eq_zero hheld.complementarity]
  | cons s stages ih =>
    rw [List.forall_mem_cons] at ht
    obtain ⟨own, hown, hholds, hothers⟩ := own?_eq hheld
    obtain ⟨scratch', hfront, hbl, hgl⟩ := (h.first he).residualsOver?_eq hz hholds ht.1 gap
    have ht' : ∀ s' ∈ stages, scratch'.Takes s'.nb s'.ng := by
      intro s' hs'
      exact ⟨hbl ▸ (ht.2 s' hs').bounds, hgl ▸ (ht.2 s' hs').general⟩
    have hback := ih h.rest h.enters hothers ht' (gap + Linear.sum (mul (it.lam.take s.nc) (it.t.take s.nc)))
    simp only [residualsOver?, Stage.first?_eq h.sized, hown, hfront, Option.bind_eq_bind, Option.bind_some]
    show Option.bind (residualsOver? stages (s.others held) scratch' (s.rest it) (some (it.pi.take s.ne))
      (gap + Linear.sum (mul (it.lam.take s.nc) (it.t.take s.nc)))) _ = _
    rw [hback]
    rfl

end Walk

/-! ## Updates -/

namespace Workspace

variable [Stored α] [Scalar α]

/-- The residuals of `q` at `it`, over those held, with the help of scratch vectors. -/
def updateOver (w : Workspace α) (scratch : Scratch α) (q : Qp α) (it : Iterate α) : Attempt QpError (Workspace α) := do
  check w.dims q it
  let stages ← .require q.stages?
  let r ← .require (residualsOver? stages w.residuals scratch it none 0)
  let nct := total (stages.map Stage.nc)
  pure { w with residuals := { r with mu := if 0 < nct then r.mu / (nct : α) else 0 } }

/-- Whatever a workspace and its scratch vectors hold, an update leaves the same. -/
theorem updateOver_eq [FixedWidth α] (hz : Scalar.isZero (0 : α) = true) {w : Workspace α} (hw : w.Full) {scratch : Scratch α}
    (ht : scratch.Takes (largest w.dims.nb) (largest w.dims.ng)) {q : Qp α} (h : q.Laid) (it : Iterate α) :
    w.updateOver scratch q it = w.update q it := by
  rw [updateOver, update]
  cases hc : check w.dims q it with
  | error failure => rfl
  | ok u =>
    obtain ⟨hdims, hfits⟩ := (check_eq_ok h).mp hc
    have hsuits := h.suits hfits
    have htakes : ∀ s ∈ q.stages, scratch.Takes s.nb s.ng := by
      intro s hs
      have hle := rows_le_largest h hdims s hs
      exact ⟨Nat.le_trans hle.1 ht.bounds, Nat.le_trans hle.2 ht.general⟩
    have hover := residualsOver?_eq hz hsuits (enters_none q.stages) (hw.covers h hdims) htakes 0
    simp only [Attempt.ok_bind, h.stages?_eq, Attempt.require_some, hover, stageResiduals?_eq hsuits]
    rfl

end Workspace

end HorizonQp
