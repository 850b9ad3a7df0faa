/-
  HorizonQp.Proofs.Staged.Read — the stages of a problem in its block, and when an update answers.

  A stage that is read is the counts of the dimensions and the views of the block at its
  place (`stage?_eq_some`, `stages?_eq_some`). Those of a laid problem are all there
  (`stages?_eq`), each in the shape that its own counts say, and the step of a stage leads to
  the next one (`Laid.linked`). So an update over a workspace for the dimensions of the problem
  answers as soon as the iterate has the lengths that the dimensions imply and the index
  arrays point inside (`Fits`, `update_eq_ok`): every stage then gets what its kernels need
  (`Laid.suits`).
-/

import HorizonQp.Proofs.Outcome
import HorizonQp.Proofs.Qp.Bound
import HorizonQp.Proofs.Staged.Fed

namespace HorizonQp

open Linear (Matrix)

namespace Qp

variable {α : Type} [Stored α]

/-! ## What is read -/

/-- The step that leaves stage `i`, in the views at its place. None leaves the last stage. -/
def ShowsStep (q : Qp α) (i : Nat) : Option (Step α) → Prop
  | none => q.dims.N ≤ i
  | some step => i < q.dims.N ∧ q.dims.nu[i + 1]? = some step.nu ∧ q.matrix? .BAbt i = some step.BAbt ∧
      q.vector? .b i = some step.b

/-- The counts of stage `i` and the views at its place. -/
structure Shows (q : Qp α) (i : Nat) (s : Stage α) : Prop where
  nu : q.dims.nu[i]? = some s.nu
  nx : q.dims.nx[i]? = some s.nx
  nb : q.dims.nb[i]? = some s.nb
  ng : q.dims.ng[i]? = some s.ng
  ns : q.dims.ns[i]? = some s.ns
  RSQrq : q.matrix? .RSQrq i = some s.RSQrq
  DCt : q.matrix? .DCt i = some s.DCt
  rqz : q.vector? .rqz i = some s.rqz
  d : q.vector? .d i = some s.d
  m : q.vector? .m i = some s.m
  Z : q.vector? .Z i = some s.Z
  idxb : q.indices? .idxb i = some s.idxb
  idxs : q.indices? .idxs i = some s.idxs
  step : q.ShowsStep i s.step

theorem step?_eq_some {q : Qp α} {i : Nat} {step : Option (Step α)} : q.step? i = some step ↔ q.ShowsStep i step := by
  unfold step? ShowsStep
  split
  case isTrue hi =>
    simp only [Option.bind_eq_bind, Option.bind_eq_some_iff, Option.pure_def, Option.some.injEq]
    constructor
    · rintro ⟨nu, hnu, M, hM, b, hb, rfl⟩
      exact ⟨hi, hnu, hM, hb⟩
    · cases step with
      | none => exact fun hle => absurd hi (Nat.not_lt.mpr hle)
      | some step => exact fun ⟨_, hnu, hM, hb⟩ => ⟨_, hnu, _, hM, _, hb, rfl⟩
  case isFalse hi =>
    cases step with
    | none => exact ⟨fun _ => Nat.not_lt.mp hi, fun _ => rfl⟩
    | some step => exact ⟨nofun, fun h => absurd h.1 hi⟩

theorem stage?_eq_some {q : Qp α} {i : Nat} {s : Stage α} : q.stage? i = some s ↔ q.Shows i s := by
  constructor
  · intro h
    unfold stage? at h
    obtain ⟨nu, hnu, h⟩ := Option.bind_eq_some_iff.mp h
    obtain ⟨nx, hnx, h⟩ := Option.bind_eq_some_iff.mp h
    obtain ⟨nb, hnb, h⟩ := Option.bind_eq_some_iff.mp h
    obtain ⟨ng, hng, h⟩ := Option.bind_eq_some_iff.mp h
    obtain ⟨ns, hns, h⟩ := Option.bind_eq_some_iff.mp h
    obtain ⟨R, hR, h⟩ := Option.bind_eq_some_iff.mp h
    obtain ⟨D, hD, h⟩ := Option.bind_eq_some_iff.mp h
    obtain ⟨rqz, hrqz, h⟩ := Option.bind_eq_some_iff.mp h
    obtain ⟨d, hd, h⟩ := Option.bind_eq_some_iff.mp h
    obtain ⟨m, hm, h⟩ := Option.bind_eq_some_iff.mp h
    obtain ⟨Z, hZ, h⟩ := Option.bind_eq_some_iff.mp h
    obtain ⟨idxb, hb, h⟩ := Option.bind_eq_some_iff.mp h
    obtain ⟨idxs, hs, h⟩ := Option.bind_eq_some_iff.mp h
    obtain ⟨step, hstep, ⟨⟩⟩ := Option.bind_eq_some_iff.mp h
    exact ⟨hnu, hnx, hnb, hng, hns, hR, hD, hrqz, hd, hm, hZ, hb, hs, step?_eq_some.mp hstep⟩
  · intro h
    simp only [stage?, h.nu, h.nx, h.nb, h.ng, h.ns, h.RSQrq, h.DCt, h.rqz, h.d, h.m, h.Z, h.idxb, h.idxs,
      step?_eq_some.mpr h.step]
    rfl

/-- The stages that are read are, one by one, what their counts and views show. -/
theorem stages?_eq_some {q : Qp α} {stages : List (Stage α)} :
    q.stages? = some stages ↔ stages.length = q.dims.N + 1 ∧ ∀ i ≤ q.dims.N, ∃ s, stages[i]? = some s ∧ q.Shows i s := by
  rw [stages?, overStages_eq_some]
  simp only [Nat.zero_add, stage?_eq_some, Dims.stages, Nat.lt_succ_iff]

/-! ## The stages of a laid problem -/

/-- The step that leaves stage `i`. -/
def stepAt (q : Qp α) (i : Nat) : Option (Step α) :=
  if i < q.dims.N then some ⟨q.dims.nuAt (i + 1), q.matrixAt .BAbt i, q.numbers .b i⟩ else none

/-- The data of stage `i`. -/
def stageAt (q : Qp α) (i : Nat) : Stage α where
  nu := q.dims.nuAt i
  nx := q.dims.nxAt i
  nb := q.dims.nbAt i
  ng := q.dims.ngAt i
  ns := q.dims.nsAt i
  RSQrq := q.matrixAt .RSQrq i
  DCt := q.matrixAt .DCt i
  rqz := q.numbers .rqz i
  d := q.numbers .d i
  m := q.numbers .m i
  Z := q.numbers .Z i
  idxb := q.words .idxb i
  idxs := q.words .idxs i
  step := q.stepAt i

/-- The stages in order. -/
def stages (q : Qp α) : List (Stage α) := (List.range q.dims.stages).map q.stageAt

namespace Laid

variable {q : Qp α} (h : q.Laid)
include h

theorem showsStep (i : Nat) : q.ShowsStep i (q.stepAt i) := by
  unfold stepAt
  split
  case isTrue hlt =>
    exact ⟨hlt, h.spans.nu_get (show i + 1 ≤ q.dims.N from hlt), (h.matrix?_eq .BAbt i).trans (if_pos hlt),
      (h.vector?_eq .b i).trans (if_pos hlt)⟩
  case isFalse hge => exact Nat.not_lt.mp hge

theorem shows {i : Nat} (hi : i ≤ q.dims.N) : q.Shows i (q.stageAt i) where
  nu := h.spans.nu_get hi
  nx := h.spans.nx_get hi
  nb := h.spans.nb_get hi
  ng := h.spans.ng_get hi
  ns := h.spans.ns_get hi
  RSQrq := (h.matrix?_eq .RSQrq i).trans (if_pos (Nat.lt_succ_of_le hi))
  DCt := (h.matrix?_eq .DCt i).trans (if_pos (Nat.lt_succ_of_le hi))
  rqz := (h.vector?_eq .rqz i).trans (if_pos (Nat.lt_succ_of_le hi))
  d := (h.vector?_eq .d i).trans (if_pos (Nat.lt_succ_of_le hi))
  m := (h.vector?_eq .m i).trans (if_pos (Nat.lt_succ_of_le hi))
  Z := (h.vector?_eq .Z i).trans (if_pos (Nat.lt_succ_of_le hi))
  idxb := (h.indices?_eq .idxb i).trans (if_pos (Nat.lt_succ_of_le hi))
  idxs := (h.indices?_eq .idxs i).trans (if_pos (Nat.lt_succ_of_le hi))
  step := h.showsStep i

theorem stage?_eq {i : Nat} (hi : i ≤ q.dims.N) : q.stage? i = some (q.stageAt i) := stage?_eq_some.mpr (h.shows hi)

theorem stages?_eq : q.stages? = some q.stages :=
  overStages_some_map fun _ hi => h.stage?_eq (Nat.le_of_lt_succ hi)

theorem stageAt_shaped {i : Nat} (hi : i ≤ q.dims.N) : (q.stageAt i).Shaped := by
  have hlt : i < q.dims.N + 1 := by omega
  have vec : ∀ block : VecBlock, i < block.region.count q.dims.N →
      (q.numbers block.region i).length = block.len q.dims i := by
    intro block hb
    rw [h.length_numbers block.isFloat_region hb, block.entries_region]
  have idx : ∀ block : IdxBlock, i < block.region.count q.dims.N →
      (q.words block.region i).length = block.len q.dims i := by
    intro block hb
    rw [h.length_words block.isFloat_region hb, block.entries_region]
  have hstep : ∀ step ∈ (q.stageAt i).step,
      i < q.dims.N ∧ step = ⟨q.dims.nuAt (i + 1), q.matrixAt .BAbt i, q.numbers .b i⟩ := by
    intro step hs
    have hs : q.stepAt i = some step := hs
    unfold stepAt at hs
    split at hs
    · exact ⟨‹_›, (Option.some.inj hs).symm⟩
    · cases hs
  exact {
    RSQrq_rows := rfl
    RSQrq_cols := rfl
    DCt_rows := rfl
    DCt_cols := rfl
    DCt := show (q.matrixAt .DCt i).WellShaped from h.matrixAt_wellShaped hlt
    rqz := vec .rqz hlt
    d := vec .d hlt
    m := vec .m hlt
    Z := vec .Z hlt
    idxb := idx .idxb hlt
    idxs := idx .idxs hlt
    BAbt_rows := by
      intro step hs
      rcases hstep step hs with ⟨-, rfl⟩
      rfl
    BAbt_cols := by
      intro step hs
      rcases hstep step hs with ⟨hN, rfl⟩
      exact (vec .b hN).symm
    BAbt := by
      intro step hs
      rcases hstep step hs with ⟨hN, rfl⟩
      exact show (q.matrixAt .BAbt i).WellShaped from h.matrixAt_wellShaped hN }

/-- The stages from any one on are linked. -/
theorem linked_from (n : Nat) {i : Nat} (hi : i + n = q.dims.N + 1) : Linked ((List.range' i n).map q.stageAt) := by
  induction n generalizing i with
  | zero => trivial
  | succ n ih =>
    refine ⟨h.stageAt_shaped (by omega), ?_, ih (by omega)⟩
    cases n with
    | zero => exact if_neg (show ¬i < q.dims.N by omega)
    | succ n =>
      have hN : i < q.dims.N := by omega
      refine ⟨⟨q.dims.nuAt (i + 1), q.matrixAt .BAbt i, q.numbers .b i⟩, if_pos hN, rfl, ?_⟩
      exact show (q.numbers .b i).length = q.dims.nxAt (i + 1) from h.length_numbers rfl hN

theorem linked : Linked q.stages := by
  have hl := h.linked_from (q.dims.N + 1) (i := 0) (by omega)
  rwa [← List.range_eq_range'] at hl

/-! ## Totals -/

variable [FixedWidth α]

omit [FixedWidth α] in
theorem nux_get {i : Nat} (hi : i ≤ q.dims.N) : q.dims.nux? i = some (q.dims.nuxAt i) :=
  h.spans.nux_get hi (Nat.lt_of_succ_lt (h.layout.words i hi).1)

theorem nvt?_eq : q.dims.nvt? = some (total (q.stages.map Stage.nv)) := by
  have hlt : total ((List.range q.dims.stages).map (Stage.nv ∘ q.stageAt)) < Word.limit :=
    h.layout.total_entries_lt (FixedWidth.width_pos α) .rqz
  have hnv : ∀ i < q.dims.stages, q.dims.nv? i = some (q.stageAt i).nv := by
    intro i hi
    have hle := le_total (List.mem_map_of_mem (f := Stage.nv ∘ q.stageAt) (List.mem_range.mpr hi))
    have hi := Nat.le_of_lt_succ hi
    simp only [Dims.nv?, h.nux_get hi, h.spans.ns_get hi, Option.bind_eq_bind, Option.bind_some]
    exact congrArg some (Word.wrap_of_lt (Nat.lt_of_le_of_lt hle hlt))
  rw [Dims.nvt?, overStages_some_map hnv, stages, List.map_map]
  exact congrArg some (Word.wrap_of_lt hlt)

theorem total_nc_lt : total (q.stages.map Stage.nc) < Word.limit := by
  rw [stages, List.map_map]
  exact h.layout.total_entries_lt (FixedWidth.width_pos α) .d

theorem nct?_eq : q.dims.nct? = some (total (q.stages.map Stage.nc)) := by
  have hlt := h.total_nc_lt
  rw [stages, List.map_map] at hlt
  have hnc : ∀ i < q.dims.stages, q.dims.nc? i = some (q.stageAt i).nc := by
    intro i hi
    have hle := le_total (List.mem_map_of_mem (f := Stage.nc ∘ q.stageAt) (List.mem_range.mpr hi))
    have hi := Nat.le_of_lt_succ hi
    simp only [Dims.nc?, h.spans.nb_get hi, h.spans.ng_get hi, h.spans.ns_get hi, Option.bind_eq_bind,
      Option.bind_some]
    exact congrArg some (Word.wrap_of_lt (Nat.lt_of_le_of_lt hle hlt))
  rw [Dims.nct?, overStages_some_map hnc, stages, List.map_map]
  exact congrArg some (Word.wrap_of_lt hlt)

theorem net?_eq : q.dims.net? = some (total (q.stages.map Stage.ne)) := by
  have hne : ∀ i < q.dims.N, q.dims.ne? i = some (q.stageAt i).ne := by
    intro i hi
    have hs : (q.stageAt i).step = some ⟨q.dims.nuAt (i + 1), q.matrixAt .BAbt i, q.numbers .b i⟩ := if_pos hi
    have hl : (q.numbers .b i).length = q.dims.nxAt (i + 1) := h.length_numbers rfl hi
    simp only [h.spans.ne_get hi, Stage.ne, hs, hl]
  -- no step leaves the last stage
  have hlast : (q.stageAt q.dims.N).ne = 0 := by
    have hs : (q.stageAt q.dims.N).step = none := if_neg (Nat.lt_irrefl _)
    simp only [Stage.ne, hs]
  have hcount : ∀ i ∈ List.range q.dims.N, (q.stageAt i).ne = RegionKind.b.entries q.dims i := by
    intro i hi
    exact Option.some.inj ((hne i (List.mem_range.mp hi)).symm.trans (h.spans.ne_get (List.mem_range.mp hi)))
  have hlt : total ((List.range q.dims.N).map fun i => (q.stageAt i).ne) < Word.limit := by
    rw [List.map_congr_left hcount]
    exact h.layout.total_entries_lt (FixedWidth.width_pos α) .b
  rw [Dims.net?, overStages_some_map hne, stages, List.map_map]
  show some (Word.wrap _) = some (total ((List.range (q.dims.N + 1)).map fun i => (q.stageAt i).ne))
  rw [total_range_succ, hlast, Nat.add_zero, Word.wrap_of_lt hlt]

end Laid

/-! ## When an update answers -/

/-- The iterate has the lengths that the dimensions imply, and the index arrays point inside. -/
structure Fits (q : Qp α) (it : Iterate α) : Prop where
  ux : q.dims.nvt? = some it.ux.length
  pi : q.dims.net? = some it.pi.length
  lam : q.dims.nct? = some it.lam.length
  t : q.dims.nct? = some it.t.length
  idxb : ∀ i ≤ q.dims.N, ∀ k ∈ q.words .idxb i, k < q.dims.nuxAt i
  idxs : ∀ i ≤ q.dims.N, ∀ k ∈ q.words .idxs i, k < q.dims.nbAt i + q.dims.ngAt i

theorem Fits.resized {q : Qp α} {it it' : Iterate α} (h : q.Fits it) (hux : it'.ux.length = it.ux.length)
    (hpi : it'.pi.length = it.pi.length) (hlam : it'.lam.length = it.lam.length) (ht : it'.t.length = it.t.length) :
    q.Fits it' where
  ux := by rw [hux, h.ux]
  pi := by rw [hpi, h.pi]
  lam := by rw [hlam, h.lam]
  t := by rw [ht, h.t]
  idxb := h.idxb
  idxs := h.idxs

theorem mem_stages {q : Qp α} {s : Stage α} : s ∈ q.stages ↔ ∃ i ≤ q.dims.N, q.stageAt i = s := by
  simp only [stages, List.mem_map, List.mem_range, Dims.stages, Nat.lt_succ_iff]

/-- The stages of a problem suit an iterate of the lengths that its dimensions imply. -/
theorem Laid.suits [FixedWidth α] {q : Qp α} (h : q.Laid) {it : Iterate α} (hit : q.Fits it) : Suits q.stages it where
  linked := h.linked
  idxb s hs := by
    rcases mem_stages.mp hs with ⟨i, hi, rfl⟩
    exact hit.idxb i hi
  idxs s hs := by
    rcases mem_stages.mp hs with ⟨i, hi, rfl⟩
    exact hit.idxs i hi
  sized :=
    { ux := Option.some.inj (hit.ux.symm.trans h.nvt?_eq)
      pi := Option.some.inj (hit.pi.symm.trans h.net?_eq)
      lam := Option.some.inj (hit.lam.symm.trans h.nct?_eq)
      t := Option.some.inj (hit.t.symm.trans h.nct?_eq) }

end Qp

namespace Workspace

variable {α : Type}

theorem checkTotal_eq_ok {f : Dims → Option Nat} {d : Dims} {x : List α} :
    checkTotal f d x = .ok () ↔ f d = some x.length := by
  simp only [checkTotal, Attempt.bind_eq_ok, Attempt.require_eq_ok, Attempt.ofExcept_eq_ok, checkLength_eq_ok]
  constructor
  · intro h
    rcases h with ⟨n, hf, rfl⟩
    exact hf
  · intro h
    exact ⟨_, h, rfl⟩

theorem checkCount_eq_ok {f : Dims → Option Nat} {work d : Dims} :
    checkCount f work d = .ok () ↔ ∃ n, f work = some n ∧ f d = some n := by
  simp only [checkCount, Attempt.bind_eq_ok, Attempt.require_eq_ok, Attempt.ofExcept_eq_ok, checkLength_eq_ok]
  constructor
  · intro h
    rcases h with ⟨n, hw, m, hd, rfl⟩
    exact ⟨n, hw, hd⟩
  · intro h
    rcases h with ⟨n, hw, hd⟩
    exact ⟨n, hw, n, hd, rfl⟩

/-- A walk that only checks passes when every stage does. -/
theorem overStages_unit {ε : Type} {f : Nat → Attempt ε Unit} {count : Nat} :
    (overStages f 0 count >>= fun _ => pure ()) = .ok () ↔ ∀ i < count, f i = .ok () := by
  rw [Attempt.bind_eq_ok]
  constructor
  · intro h i hi
    rcases h with ⟨xs, hxs, -⟩
    rcases (overStages_eq_ok.mp hxs).2 i hi with ⟨u, -, hu⟩
    rwa [Nat.zero_add] at hu
  · intro h
    refine ⟨List.replicate count (), overStages_eq_ok.mpr ⟨List.length_replicate, ?_⟩, rfl⟩
    intro i hi
    refine ⟨(), by simp [hi], ?_⟩
    rw [Nat.zero_add]
    exact h i hi

theorem checkDims_eq_ok {work d : Dims} :
    checkDims work d = .ok () ↔
      work.N = d.N ∧ checkCount Dims.nvt? work d = .ok () ∧ checkCount Dims.net? work d = .ok () ∧
      checkCount Dims.nct? work d = .ok () ∧
      ∀ i < d.stages, checkCount (·.nb[i]?) work d = .ok () ∧ checkCount (·.ng[i]?) work d = .ok () := by
  simp only [checkDims, bind_unit_eq_ok, Attempt.ofExcept_eq_ok, checkLength_eq_ok]
  rw [overStages_unit]
  simp only [bind_unit_eq_ok]

/-- A workspace for the dimensions of a problem is accepted. -/
theorem checkDims_self [Stored α] [FixedWidth α] {q : Qp α} (h : q.Laid) : checkDims q.dims q.dims = .ok () := by
  have s := h.spans
  refine checkDims_eq_ok.mpr ⟨rfl, checkCount_eq_ok.mpr ⟨_, h.nvt?_eq, h.nvt?_eq⟩,
    checkCount_eq_ok.mpr ⟨_, h.net?_eq, h.net?_eq⟩, checkCount_eq_ok.mpr ⟨_, h.nct?_eq, h.nct?_eq⟩, ?_⟩
  intro i hi
  have hi := Nat.le_of_lt_succ hi
  exact ⟨checkCount_eq_ok.mpr ⟨_, s.nb_get hi, s.nb_get hi⟩, checkCount_eq_ok.mpr ⟨_, s.ng_get hi, s.ng_get hi⟩⟩

theorem checkStageIndices_eq_ok [Stored α] {q : Qp α} (h : q.Laid) {i : Nat} (hi : i ≤ q.dims.N) :
    checkStageIndices q i = .ok () ↔
      (∀ k ∈ q.words .idxb i, k < q.dims.nuxAt i) ∧ ∀ k ∈ q.words .idxs i, k < q.dims.nbAt i + q.dims.ngAt i := by
  have s := h.spans
  have hidxb : q.indices? .idxb i = some (q.words .idxb i) := (h.shows hi).idxb
  have hidxs : q.indices? .idxs i = some (q.words .idxs i) := (h.shows hi).idxs
  have hrows : q.dims.nbAt i + q.dims.ngAt i < Word.limit := by
    have := (h.layout.words i hi).2.2
    unfold Dims.ncAt at this
    omega
  simp only [checkStageIndices, hidxb, hidxs, h.nux_get hi, s.nb_get hi, s.ng_get hi, Word.wrap_of_lt hrows,
    Attempt.require_some, Attempt.ok_bind, bind_unit_eq_ok, Attempt.ofExcept_eq_ok, checkIndices_eq_ok]

theorem check_eq_ok [Stored α] {q : Qp α} (h : q.Laid) {work : Dims} {it : Iterate α} :
    check work q it = .ok () ↔ checkDims work q.dims = .ok () ∧ q.Fits it := by
  simp only [check, bind_unit_eq_ok, checkTotal_eq_ok]
  rw [overStages_unit]
  constructor
  · intro ⟨hw, hux, hpi, hlam, ht, hidx⟩
    have hidx := fun i (hi : i ≤ q.dims.N) => (checkStageIndices_eq_ok h hi).mp (hidx i (Nat.lt_succ_of_le hi))
    exact ⟨hw, hux, hpi, hlam, ht, fun i hi => (hidx i hi).1, fun i hi => (hidx i hi).2⟩
  · intro ⟨hw, hf⟩
    refine ⟨hw, hf.ux, hf.pi, hf.lam, hf.t, ?_⟩
    intro i hi
    have hi := Nat.le_of_lt_succ hi
    exact (checkStageIndices_eq_ok h hi).mpr ⟨hf.idxb i hi, hf.idxs i hi⟩

theorem update_eq_ok [Stored α] [FixedWidth α] [Scalar α] {q : Qp α} (h : q.Laid) {w w' : Workspace α} {it : Iterate α} :
    w.update q it = .ok w' ↔
      checkDims w.dims q.dims = .ok () ∧ q.Fits it ∧ w' = { w with residuals := stageResiduals q.stages it } := by
  simp only [update, bind_unit_eq_ok, check_eq_ok h, h.stages?_eq, Attempt.require_some, Attempt.ok_bind, and_assoc,
    and_congr_right_iff]
  intro _ hfits
  rw [stageResiduals?_eq (h.suits hfits)]
  exact Attempt.pure_eq_ok.trans eq_comm

end Workspace

/-! ### When only the iterate is left to check -/

/-- The vectors of the iterate have the lengths that the dimensions say. -/
def Iterate.check {α : Type} (d : Dims) (it : Iterate α) : Attempt QpError Unit := do
  Workspace.checkTotal Dims.nvt? d it.ux
  Workspace.checkTotal Dims.net? d it.pi
  Workspace.checkTotal Dims.nct? d it.lam
  Workspace.checkTotal Dims.nct? d it.t

namespace Workspace

section Checks

variable {α : Type} [Stored α] [FixedWidth α] {q : Qp α} (h : q.Laid)
include h

theorem iterate_check_eq_ok {it : Iterate α} : it.check q.dims = .ok () ↔ Sized q.stages it := by
  simp only [Iterate.check, bind_unit_eq_ok, checkTotal_eq_ok, h.nvt?_eq, h.net?_eq, h.nct?_eq, Option.some.injEq]
  constructor
  · intro ⟨hux, hpi, hlam, ht⟩
    exact ⟨hux.symm, hpi.symm, hlam.symm, ht.symm⟩
  · intro hit
    exact ⟨hit.ux.symm, hit.pi.symm, hit.lam.symm, hit.t.symm⟩

variable {work : Dims} (hwork : checkDims work q.dims = .ok ())
  (hidx : ∀ s ∈ q.stages, (∀ k ∈ s.idxb, k < s.nux) ∧ ∀ k ∈ s.idxs, k < s.rows) (it : Iterate α)
include hwork hidx

omit [FixedWidth α] in
/-- On a workspace for the problem, whose index arrays point inside, only the iterate is left to check. -/
theorem check_eq : check work q it = it.check q.dims := by
  have hover : ∀ i < q.dims.stages, checkStageIndices q i = .ok () := by
    intro i hi
    have hi := Nat.le_of_lt_succ hi
    exact (checkStageIndices_eq_ok h hi).mpr (hidx _ (Qp.mem_stages.mpr ⟨i, hi, rfl⟩))
  have hover : (overStages (checkStageIndices q) 0 q.dims.stages >>= fun _ => pure ()) = pure () := overStages_unit.mpr hover
  rw [check, hwork, Attempt.ok_bind, hover, bind_pure_unit]
  rfl

theorem update_eq [Scalar α] (residuals : Residuals α) :
    update ⟨work, residuals⟩ q it = (it.check q.dims).map fun _ => ⟨work, stageResiduals q.stages it⟩ := by
  rw [update, check_eq h hwork hidx]
  cases hcheck : it.check q.dims with
  | error failure => rfl
  | ok u =>
    have hsuits : Suits q.stages it :=
      ⟨h.linked, fun s hs => (hidx s hs).1, fun s hs => (hidx s hs).2, (iterate_check_eq_ok h).mp hcheck⟩
    rw [Attempt.ok_bind, h.stages?_eq, Attempt.require_some, Attempt.ok_bind, stageResiduals?_eq hsuits]
    rfl

end Checks

end Workspace

end HorizonQp
