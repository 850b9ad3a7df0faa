/-
  HorizonQp.Proofs.Staged.Total — an update answers or refuses, and a refused one leaves everything as it was.

  An update overwrites the residuals held, stage after stage, and puts the mean at the end
  (`Pass`, `Workspace.updateInPlace`). What it takes and what it overwrites has to be there:
  the parts of the iterate, the operands of the kernels, the residuals held and the room for
  the rows of a stage. Its checks compare a workspace with the problem by their totals and by the
  bounds and general constraints of each stage, and not by the other counts.

  That is enough. A workspace that was made for consistent dimensions holds as many entries
  as their totals, whatever it went through since (`Used.holds`), and past the checks every
  stage gets what its kernels need. So nothing fails after the first write, and an update does
  everything or nothing (`updateInPlace_eq`), in the cases that `Accepts` lists (`update_total`).
-/

import HorizonQp.Proofs.Staged.Residuals

namespace HorizonQp

variable {α : Type}

/-! ## Overwriting what is held -/

/-- The entries of `room` behind `piece`, which replaces its first ones. -/
def past? (piece room : List α) : Option (List α) :=
  if piece.length ≤ room.length then some (room.drop piece.length) else none

/-- What is left of the residuals held when `front` replaces the first ones. -/
def Residuals.past? (front room : Residuals α) : Option (Residuals α) := do
  pure ⟨← HorizonQp.past? front.stationarity room.stationarity, ← HorizonQp.past? front.equations room.equations,
    ← HorizonQp.past? front.inequalities room.inequalities, ← HorizonQp.past? front.complementarity room.complementarity,
    room.mu⟩

theorem Residuals.before_assoc (a b c : Residuals α) : (a.before b).before c = a.before (b.before c) := by
  simp only [Residuals.before, List.append_assoc]

/-- Residuals of a stage fit in the room of the stage and those behind it. -/
theorem Covers.past? {s : Stage α} {stages : List (Stage α)} {front room : Residuals α} (h : Covers (s :: stages) room)
    (hf : s.Holds front) : ∃ rest, front.past? room = some rest ∧ Covers stages rest ∧ rest.mu = room.mu := by
  rcases h with ⟨hg, hb, hd, hm⟩
  rw [List.map_cons, total_cons] at hg hb hd hm
  refine ⟨⟨room.stationarity.drop s.nv, room.equations.drop s.ne, room.inequalities.drop s.nc,
    room.complementarity.drop s.nc, room.mu⟩, ?_, ?_, rfl⟩
  · simp only [Residuals.past?, HorizonQp.past?, hf.stationarity, hf.equations, hf.inequalities, hf.complementarity]
    rw [if_pos (by omega), if_pos (by omega), if_pos (by omega), if_pos (by omega)]
    rfl
  · constructor <;> simp only [List.length_drop] <;> omega

/-- The greatest of some counts. -/
def largest (counts : List Nat) : Nat := counts.foldr max 0

theorem le_largest {counts : List Nat} {n : Nat} (h : n ∈ counts) : n ≤ largest counts := by
  induction counts with
  | nil => cases h
  | cons m counts ih =>
    rcases List.mem_cons.mp h with rfl | h
    · exact Nat.le_max_left ..
    · exact Nat.le_trans (ih h) (Nat.le_max_right ..)

/-- How far an update has come: the residuals put so far, with the products of multipliers
    and slacks in `done.mu`, those still to be overwritten, what is left of the iterate, and the
    multipliers of the step into the next stage. -/
structure Pass (α : Type) where
  done : Residuals α
  room : Residuals α
  rest : Iterate α
  entering : Option (List α)

namespace Pass

variable [Scalar α]

def start (held : Residuals α) (it : Iterate α) : Pass α := ⟨⟨[], [], [], [], 0⟩, held, it, none⟩

omit [Scalar α] in
/-- The residuals that the workspace holds. -/
def held (p : Pass α) : Residuals α := p.done.before p.room

/-- Puts the residuals of the next stage. The differences of its multipliers go through two
    vectors that are as long as the most bounds and constraints of any stage of `work`. -/
def stage? (work : Dims) (p : Pass α) (s : Stage α) : Option (Pass α) :=
  if s.nb ≤ largest work.nb ∧ s.ng ≤ largest work.ng then do
    let part ← s.first? p.rest
    let front ← s.residuals? part p.entering (p.rest.ux.drop s.nv) p.done.mu
    pure ⟨p.done.before front, ← front.past? p.room, s.rest p.rest, some part.pi⟩
  else none

/-- Puts the mean over `nct` rows. -/
def finish (nct : Nat) (p : Pass α) : Pass α :=
  { p with room := { p.room with mu := if 0 < nct then p.done.mu / (nct : α) else 0 } }

theorem finish_held {p : Pass α} (h : Covers [] p.room) (nct : Nat) :
    (p.finish nct).held = { p.done with mu := if 0 < nct then p.done.mu / (nct : α) else 0 } := by
  simp only [held, finish, Residuals.before, List.eq_nil_of_length_eq_zero h.stationarity,
    List.eq_nil_of_length_eq_zero h.equations, List.eq_nil_of_length_eq_zero h.inequalities,
    List.eq_nil_of_length_eq_zero h.complementarity, List.append_nil]

/-- A pass over stages that the rest of the iterate suits puts their residuals. -/
theorem stages_eq {work : Dims} {stages : List (Stage α)} {p : Pass α}
    (hwork : ∀ s ∈ stages, s.nb ≤ largest work.nb ∧ s.ng ≤ largest work.ng) (h : Suits stages p.rest)
    (he : Enters stages p.entering) (hroom : Covers stages p.room) :
    ∃ p', stages.foldlM (stage? work) p = some p' ∧
      p'.done = p.done.before (residualsFrom stages p.rest p.entering p.done.mu) ∧ Covers [] p'.room := by
  induction stages generalizing p with
  | nil =>
    refine ⟨p, rfl, ?_, hroom⟩
    simp only [residualsFrom, Residuals.before, List.append_nil]
  | cons s stages ih =>
    have hfed := h.first he
    rcases hroom.past? (hfed.holds _) with ⟨room, hpast, hcovers, -⟩
    let front := s.residuals (s.first p.rest) p.entering (p.rest.ux.drop s.nv)
      (p.done.mu + Linear.sum (Linear.mul (s.first p.rest).lam (s.first p.rest).t))
    let next : Pass α := ⟨p.done.before front, room, s.rest p.rest, some (s.first p.rest).pi⟩
    have hstep : stage? work p s = some next := by
      rw [stage?, if_pos (hwork s List.mem_cons_self), Stage.first?_eq h.sized, Option.bind_eq_bind, Option.bind_some,
        hfed.residuals?_eq, Option.bind_eq_bind, Option.bind_some, hpast]
      rfl
    rcases ih (p := next) (fun s' hs' => hwork s' (List.mem_cons_of_mem _ hs')) h.rest h.enters hcovers with
      ⟨p', hp', hdone, hend⟩
    refine ⟨p', ?_, ?_, hend⟩
    · rw [List.foldlM_cons, hstep]
      exact hp'
    · rw [hdone, Residuals.before_assoc]
      rfl

end Pass

namespace Workspace

variable [Stored α] [Scalar α]

/-- Reads stage `i` and puts its residuals. -/
def stageStep (work : Dims) (q : Qp α) (i : Nat) (p : Pass α) : Attempt QpError (Pass α) := do
  let s ← .require (q.stage? i)
  .require (p.stage? work s)

/-- The steps of an update: the checks, the stages one after the other, the mean. -/
def updateSteps (work : Dims) (q : Qp α) (it : Iterate α) : List (Pass α → Attempt QpError (Pass α)) :=
  (fun p => check work q it >>= fun _ => pure p) ::
    ((List.range q.dims.stages).map (stageStep work q) ++ [fun p => do pure (p.finish (← .require q.dims.nct?))])

/-- The workspace that an update leaves, and how the update ends. -/
def updateInPlace (w : Workspace α) (q : Qp α) (it : Iterate α) : Workspace α × Attempt QpError Unit :=
  let (p, ending) := inPlace (updateSteps w.dims q it) (Pass.start w.residuals it)
  ({ w with residuals := p.held }, ending)

/-- The workspaces that were made for consistent dimensions and went through any updates,
    whatever became of these. -/
inductive Used : Workspace α → Prop where
  | new {d : Dims} {w : Workspace α} : d.Consistent → new? d = some w → Used w
  | update {w : Workspace α} {q : Qp α} (it : Iterate α) : Used w → q.Reachable → Used (w.updateInPlace q it).1

/-- The workspace holds as many residuals as its dimensions say. -/
structure Full (w : Workspace α) : Prop where
  stationarity : w.dims.nvt? = some w.residuals.stationarity.length
  equations : w.dims.net? = some w.residuals.equations.length
  inequalities : w.dims.nct? = some w.residuals.inequalities.length
  complementarity : w.dims.nct? = some w.residuals.complementarity.length

theorem full_of_new {d : Dims} {w : Workspace α} (h : new? d = some w) : w.dims = d ∧ w.Full := by
  unfold new? at h
  split at h
  case isFalse => cases h
  simp only [Residuals.zeros?, Linear.zeros?, Option.bind_eq_bind, Option.bind_eq_some_iff, Option.pure_def,
    Option.ite_none_right_eq_some, Option.some.injEq] at h
  obtain ⟨nv, hnv, ne, hne, nc, hnc, r, ⟨g, ⟨-, rfl⟩, b, ⟨-, rfl⟩, i, ⟨-, rfl⟩, m, ⟨-, rfl⟩, rfl⟩, rfl⟩ := h
  refine ⟨rfl, ?_⟩
  constructor <;> simp only [List.length_replicate] <;> assumption

omit [Scalar α] in
/-- What passes the checks has room for the residuals of the problem. -/
theorem Full.covers [FixedWidth α] {w : Workspace α} {q : Qp α} (hw : w.Full) (h : q.Laid) (hc : checkDims w.dims q.dims = .ok ()) :
    Covers q.stages w.residuals := by
  have same {f : Dims → Option Nat} {m n : Nat} (hf : checkCount f w.dims q.dims = .ok ()) (hm : f w.dims = some m)
      (hn : f q.dims = some n) : m = n := by
    rcases checkCount_eq_ok.mp hf with ⟨k, hk, hk'⟩
    exact (Option.some.inj (hm.symm.trans hk)).trans (Option.some.inj (hk'.symm.trans hn))
  rcases checkDims_eq_ok.mp hc with ⟨-, hnv, hne, hnc, -⟩
  exact ⟨same hnv hw.stationarity h.nvt?_eq, same hne hw.equations h.net?_eq, same hnc hw.inequalities h.nct?_eq,
    same hnc hw.complementarity h.nct?_eq⟩

/-- The workspace has consistent dimensions, and room for their totals. -/
structure Holds (w : Workspace α) : Prop where
  dims : w.dims.Consistent
  stationarity : w.dims.nvt? = some w.residuals.stationarity.length
  equations : w.dims.net? = some w.residuals.equations.length
  inequalities : w.dims.nct? = some w.residuals.inequalities.length
  complementarity : w.dims.nct? = some w.residuals.complementarity.length

omit [Stored α] [Scalar α] in
theorem Holds.full {w : Workspace α} (hw : w.Holds) : w.Full :=
  ⟨hw.stationarity, hw.equations, hw.inequalities, hw.complementarity⟩

theorem holds_of_new {d : Dims} {w : Workspace α} (hd : d.Consistent) (h : new? d = some w) : w.Holds := by
  obtain ⟨rfl, hfull⟩ := full_of_new h
  exact ⟨hd, hfull.stationarity, hfull.equations, hfull.inequalities, hfull.complementarity⟩

section Checked

variable [FixedWidth α] {w : Workspace α} {q : Qp α} {it : Iterate α} (hw : w.Holds) (h : q.Laid)
include hw h

omit [FixedWidth α] [Scalar α] hw in
/-- The bounds and constraints of every stage fit the largest of the workspace. -/
theorem rows_le_largest (hc : checkDims w.dims q.dims = .ok ()) :
    ∀ s ∈ q.stages, s.nb ≤ largest w.dims.nb ∧ s.ng ≤ largest w.dims.ng := by
  have among {f : Dims → List Nat} {i n : Nat} (hf : checkCount (fun d => (f d)[i]?) w.dims q.dims = .ok ())
      (hn : (f q.dims)[i]? = some n) : n ≤ largest (f w.dims) := by
    rcases checkCount_eq_ok.mp hf with ⟨k, hk, hk'⟩
    cases hk'.symm.trans hn
    exact le_largest (List.mem_of_getElem? hk)
  intro s hs
  rcases Qp.mem_stages.mp hs with ⟨i, hi, rfl⟩
  rcases checkDims_eq_ok.mp hc with ⟨-, -, -, -, hrows⟩
  rcases hrows i (Nat.lt_succ_of_le hi) with ⟨hb, hg⟩
  exact ⟨among hb (h.spans.nb_get hi), among hg (h.spans.ng_get hi)⟩

omit [FixedWidth α] hw in
theorem inTurn_stageSteps {work : Dims} {is : List Nat} (his : ∀ i ∈ is, i ≤ q.dims.N) {p : Pass α} :
    inTurn (is.map (stageStep work q)) p = .require ((is.map q.stageAt).foldlM (Pass.stage? work) p) := by
  induction is generalizing p with
  | nil => rfl
  | cons i is ih =>
    rw [List.map_cons, List.map_cons, inTurn_cons, List.foldlM_cons, stageStep, h.stage?_eq (his i List.mem_cons_self),
      Attempt.require_some, Attempt.ok_bind]
    cases Pass.stage? work p (q.stageAt i) with
    | none => rfl
    | some p' => exact ih fun j hj => his j (List.mem_cons_of_mem _ hj)

/-- Past the checks the steps of an update put the residuals of the problem. -/
theorem inTurn_stages (hc : check w.dims q it = .ok ()) :
    ∃ p, inTurn (updateSteps w.dims q it) (Pass.start w.residuals it) = .ok p ∧ p.held = stageResiduals q.stages it := by
  rcases (check_eq_ok h).mp hc with ⟨hdims, hfits⟩
  rcases Pass.stages_eq (p := Pass.start w.residuals it) (rows_le_largest h hdims) (h.suits hfits)
    (enters_none q.stages) (hw.full.covers h hdims) with ⟨p, hp, hdone, hend⟩
  have hall : ∀ i ∈ List.range q.dims.stages, i ≤ q.dims.N := fun i hi => Nat.le_of_lt_succ (List.mem_range.mp hi)
  refine ⟨p.finish (total (q.stages.map Stage.nc)), ?_, ?_⟩
  · rw [updateSteps, inTurn_cons, hc, Attempt.ok_bind]
    show inTurn _ _ = _
    rw [inTurn_append, inTurn_stageSteps h hall, ← Qp.stages, hp, Attempt.require_some, Attempt.ok_bind, inTurn_cons,
      h.nct?_eq]
    rfl
  · rw [Pass.finish_held hend, hdone]
    rfl

/-- An update does everything or nothing. -/
theorem updateInPlace_eq : w.updateInPlace q it = allOrNothing w (w.update q it) := by
  cases hc : check w.dims q it with
  | error failure =>
    have hupdate : w.update q it = .error failure := by rw [update, hc]; rfl
    rw [hupdate, updateInPlace, updateSteps, inPlace, hc]
    rfl
  | ok u =>
    rcases inTurn_stages hw h hc with ⟨p, hp, hheld⟩
    have hupdate : w.update q it = .ok { w with residuals := stageResiduals q.stages it } :=
      (update_eq_ok h).mpr ⟨((check_eq_ok h).mp hc).1, ((check_eq_ok h).mp hc).2, rfl⟩
    rw [hupdate, updateInPlace, inPlace_of_ok hp, ← hheld]
    rfl

end Checked

/-! ## When an update answers -/

/-- What an update takes: a workspace with the totals of the problem and its bounds and
    general constraints at every stage, an iterate of the lengths that the dimensions imply, and
    index arrays that point inside. -/
structure Accepts (w : Workspace α) (q : Qp α) (it : Iterate α) : Prop where
  N : w.dims.N = q.dims.N
  nvt : w.dims.nvt? = q.dims.nvt?
  net : w.dims.net? = q.dims.net?
  nct : w.dims.nct? = q.dims.nct?
  nb : ∀ i ≤ q.dims.N, w.dims.nb[i]? = q.dims.nb[i]?
  ng : ∀ i ≤ q.dims.N, w.dims.ng[i]? = q.dims.ng[i]?
  ux : q.dims.nvt? = some it.ux.length
  pi : q.dims.net? = some it.pi.length
  lam : q.dims.nct? = some it.lam.length
  t : q.dims.nct? = some it.t.length
  idxb : ∀ i ≤ q.dims.N, ∀ idx, q.indices? .idxb i = some idx → ∀ k ∈ idx, k < q.dims.nuAt i + q.dims.nxAt i
  idxs : ∀ i ≤ q.dims.N, ∀ idx, q.indices? .idxs i = some idx → ∀ k ∈ idx, k < q.dims.nbAt i + q.dims.ngAt i

section Outcomes

variable {w : Workspace α} {q : Qp α} {it : Iterate α}

omit [Stored α] [Scalar α] in
theorem checkCount_iff {f : Dims → Option Nat} {w d : Dims} {n : Nat} (hd : f d = some n) :
    checkCount f w d = .ok () ↔ f w = f d := by
  rw [checkCount_eq_ok]
  constructor
  · intro ⟨m, hw, hd⟩
    exact hw.trans hd.symm
  · intro hw
    exact ⟨n, hw.trans hd, hd⟩

omit [Scalar α] in
theorem accepts_iff [FixedWidth α] (h : q.Laid) : w.Accepts q it ↔ checkDims w.dims q.dims = .ok () ∧ q.Fits it := by
  have hidx (b : IdxBlock) {i : Nat} (hi : i ≤ q.dims.N) : q.indices? b i = some (q.words b.region i) := by
    rw [h.indices?_eq]
    exact if_pos (by cases b <;> exact Nat.lt_succ_of_le hi)
  have hrows (i : Nat) (hi : i ≤ q.dims.N) := And.intro
    (checkCount_iff (f := (·.nb[i]?)) (w := w.dims) (h.spans.nb_get hi))
    (checkCount_iff (f := (·.ng[i]?)) (w := w.dims) (h.spans.ng_get hi))
  rw [checkDims_eq_ok, checkCount_iff h.nvt?_eq, checkCount_iff h.net?_eq, checkCount_iff h.nct?_eq]
  constructor
  · intro a
    refine ⟨⟨a.N, a.nvt, a.net, a.nct, fun i hi => ?_⟩, a.ux, a.pi, a.lam, a.t,
      fun i hi => a.idxb i hi _ (hidx .idxb hi), fun i hi => a.idxs i hi _ (hidx .idxs hi)⟩
    have hi := Nat.le_of_lt_succ hi
    exact ⟨(hrows i hi).1.mpr (a.nb i hi), (hrows i hi).2.mpr (a.ng i hi)⟩
  · intro ⟨⟨hN, hnvt, hnet, hnct, hs⟩, f⟩
    have hs := fun i (hi : i ≤ q.dims.N) => hs i (Nat.lt_succ_of_le hi)
    refine ⟨hN, hnvt, hnet, hnct, fun i hi => (hrows i hi).1.mp (hs i hi).1, fun i hi => (hrows i hi).2.mp (hs i hi).2, f.ux,
      f.pi, f.lam, f.t, fun i hi idx he => ?_, fun i hi idx he => ?_⟩
    · cases (hidx .idxb hi).symm.trans he
      exact f.idxb i hi
    · cases (hidx .idxs hi).symm.trans he
      exact f.idxs i hi

omit [Stored α] [Scalar α] in
theorem checkCount_fails {f : Dims → Option Nat} {work d : Dims} {m n : Nat} (hw : f work = some m) (hd : f d = some n) :
    (checkCount f work d).FailsWith (Failure.Reports QpError.AboutArrays) := by
  rw [checkCount, hw, hd]
  exact checkLength_fails trivial

omit [Stored α] [Scalar α] in
theorem checkTotal_fails {f : Dims → Option Nat} {d : Dims} {n : Nat} (hd : f d = some n) (x : List α) :
    (checkTotal f d x).FailsWith (Failure.Reports QpError.AboutArrays) := by
  rw [checkTotal, hd]
  exact checkLength_fails trivial

omit [Scalar α] in
theorem checkStageIndices_fails (h : q.Laid) {i : Nat} (hi : i ≤ q.dims.N) :
    (checkStageIndices q i).FailsWith (Failure.Reports QpError.AboutArrays) := by
  have hidx (b : IdxBlock) : q.indices? b i = some (q.words b.region i) := by
    rw [h.indices?_eq]
    exact if_pos (by cases b <;> exact Nat.lt_succ_of_le hi)
  rw [checkStageIndices, hidx, h.nux_get hi, hidx, h.spans.nb_get hi, h.spans.ng_get hi]
  simp only [Attempt.require_some, Attempt.ok_bind]
  exact .bind (checkIndices_fails fun _ _ _ => trivial) fun _ _ => checkIndices_fails fun _ _ _ => trivial

omit [Scalar α] in
/-- The checks of an update only ever report. -/
theorem check_fails [FixedWidth α] (hw : w.Holds) (h : q.Laid) :
    (check w.dims q it).FailsWith (Failure.Reports QpError.AboutArrays) := by
  have hspans := hw.dims.shaped.spanned
  have hdims : (checkDims w.dims q.dims).FailsWith (Failure.Reports QpError.AboutArrays) := by
    refine .bind (checkLength_fails trivial) fun _ hN => ?_
    have hN : w.dims.N = q.dims.N := checkLength_eq_ok.mp (Attempt.ofExcept_eq_ok.mp hN)
    refine .bind (checkCount_fails hw.stationarity h.nvt?_eq) fun _ _ => ?_
    refine .bind (checkCount_fails hw.equations h.net?_eq) fun _ _ => ?_
    refine .bind (checkCount_fails hw.inequalities h.nct?_eq) fun _ _ => ?_
    refine .bind (.overStages fun i hi => ?_) fun _ _ => .ok ()
    have hi : 0 + i ≤ q.dims.N := by
      rw [Nat.zero_add]
      exact Nat.le_of_lt_succ hi
    exact .bind (checkCount_fails (hspans.nb_get (hN ▸ hi)) (h.spans.nb_get hi)) fun _ _ =>
      checkCount_fails (hspans.ng_get (hN ▸ hi)) (h.spans.ng_get hi)
  refine .bind hdims fun _ _ => ?_
  refine .bind (checkTotal_fails h.nvt?_eq it.ux) fun _ _ => ?_
  refine .bind (checkTotal_fails h.net?_eq it.pi) fun _ _ => ?_
  refine .bind (checkTotal_fails h.nct?_eq it.lam) fun _ _ => ?_
  refine .bind (checkTotal_fails h.nct?_eq it.t) fun _ _ => ?_
  refine .bind (.overStages fun i hi => ?_) fun _ _ => .ok ()
  rw [Nat.zero_add]
  exact checkStageIndices_fails h (Nat.le_of_lt_succ hi)

theorem update_fails [FixedWidth α] (hw : w.Holds) (h : q.Laid) :
    (w.update q it).FailsWith (Failure.Reports QpError.AboutArrays) := by
  refine .bind (check_fails hw h) fun u hc => ?_
  have hfits := ((check_eq_ok h).mp hc).2
  rw [h.stages?_eq, Attempt.require_some, Attempt.ok_bind, stageResiduals?_eq (h.suits hfits)]
  exact .ok _

end Outcomes

/-! ## Used workspaces -/

section Used

variable [FixedWidth α]

/-- A workspace keeps its dimensions and the room for their totals, whatever it goes through. -/
theorem Used.holds {w : Workspace α} (h : w.Used) : w.Holds := by
  induction h with
  | new hd hw => exact holds_of_new hd hw
  | @update w q it _ hq ih =>
    have hl := hq.bound.toLaid
    rw [updateInPlace_eq ih hl]
    cases hu : w.update q it with
    | error failure => exact ih
    | ok w' =>
      rcases (update_eq_ok hl).mp hu with ⟨hdims, hfits, rfl⟩
      have held := ih.full.covers hl hdims
      have put := residualsFrom_covers (h := hl.suits hfits) (enters_none q.stages) 0
      exact ⟨ih.dims, ih.stationarity.trans (congrArg some (held.stationarity.trans put.stationarity.symm)),
        ih.equations.trans (congrArg some (held.equations.trans put.equations.symm)),
        ih.inequalities.trans (congrArg some (held.inequalities.trans put.inequalities.symm)),
        ih.complementarity.trans (congrArg some (held.complementarity.trans put.complementarity.symm))⟩

/-- For every reachable problem, every workspace that was made for consistent dimensions and
    used in any way, and every iterate, an update answers exactly when it accepts the three. In
    every other case it reports a length or an index, and it never ends otherwise. Done in
    place it leaves the answer, or the workspace as it was. -/
theorem update_total {q : Qp α} (hq : q.Reachable) {w : Workspace α} (hw : w.Used) (it : Iterate α) :
    (w.update q it).AnswersIff (w.Accepts q it) QpError.AboutArrays ∧
    w.updateInPlace q it = allOrNothing w (w.update q it) := by
  have hl := hq.bound.toLaid
  refine ⟨⟨?_, update_fails hw.holds hl⟩, updateInPlace_eq hw.holds hl⟩
  rw [accepts_iff hl]
  constructor
  · intro ⟨w', hu⟩
    exact ⟨((update_eq_ok hl).mp hu).1, ((update_eq_ok hl).mp hu).2.1⟩
  · intro ⟨hdims, hfits⟩
    exact ⟨_, (update_eq_ok hl).mpr ⟨hdims, hfits, rfl⟩⟩

/-- A workspace for other stages with the same totals serves, and an iterate without entries
    is refused. -/
theorem update_total_other_stages : ∃ (q : Qp ℚ) (w : Workspace ℚ), q.Reachable ∧ w.Used ∧ w.dims ≠ q.dims ∧
    (∃ w', w.update q ⟨[1, 2, 3, 4, 5, 6, 7], [8], [1, 2, 3, 4, 5, 6, 7, 8, 9, 10], [1, 1, 1, 1, 1, 2, 2, 2, 2, 2]⟩ =
      .ok w') ∧
    (∃ e, w.update q ⟨[], [], [], []⟩ = .error (.reported e)) ∧ (w.updateInPlace q ⟨[], [], [], []⟩).1 = w := by
  rcases Qp.exists_softened with ⟨q, hq, hdims, hidxb, hidxs, hlastb, hlasts⟩
  have hnew : ∃ w : Workspace ℚ, new? ⟨1, [2, 1], [0, 0], [2, 0], [0, 0], [2, 0], [1, 0], [2, 0]⟩ = some w ∧
      w.dims = ⟨1, [2, 1], [0, 0], [2, 0], [0, 0], [2, 0], [1, 0], [2, 0]⟩ := ⟨_, rfl, rfl⟩
  rcases hnew with ⟨w, hnew, hwork⟩
  have hw : w.Used := .new (by decide) hnew
  have haccepts : w.Accepts q
      ⟨[1, 2, 3, 4, 5, 6, 7], [8], [1, 2, 3, 4, 5, 6, 7, 8, 9, 10], [1, 1, 1, 1, 1, 2, 2, 2, 2, 2]⟩ :=
    (accepts_iff hq.bound.toLaid).mpr ⟨by rw [hwork, hdims]; decide,
      Qp.fits_softened hdims hidxb hidxs hlastb hlasts rfl rfl rfl rfl⟩
  have hrefuses : ¬w.Accepts q ⟨[], [], [], []⟩ := by
    intro a
    have hux := a.ux
    rw [hdims] at hux
    revert hux
    decide
  rcases (update_total hq hw ⟨[], [], [], []⟩) with ⟨hanswers, hplace⟩
  rcases hanswers.refuses hrefuses with ⟨e, he, -⟩
  refine ⟨q, w, hq, hw, by rw [hwork, hdims]; decide, (update_total hq hw _).1.answers.mpr haccepts, ⟨e, he⟩, ?_⟩
  rw [hplace, he]
  rfl

end Used

end Workspace

end HorizonQp
