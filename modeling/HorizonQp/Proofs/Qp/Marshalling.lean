/-
  HorizonQp.Proofs.Qp.Marshalling — how the accesses to the fields end.

  For every reachable problem, an access to a field answers exactly when the field is of the
  kind that the access takes, the stage has it and the array has its length, and no index is
  above its limit; a load answers exactly when this holds of all its arrays, but for those
  left empty. Every other access reports what is wrong (`AboutAccess`). None ends otherwise:
  no slot and no index lies outside its array (`marshalling`).

  A call that writes more than once does everything or nothing. Setting `b`, `r` or `q`
  writes the vector and then a last row (`vectorSteps`), a load clears the numbers and then
  writes field after field (`loadSteps`). In place no step fails once the first, which
  makes all the checks, went through.
-/

import HorizonQp.Proofs.Qp.Writes

namespace HorizonQp

open Linear (Order)

/-- What an access to a field reports. -/
def QpError.AboutAccess : QpError → Prop
  | .badBoundSplit _ | .arena _ => False
  | _ => True

open QpError (AboutAccess)

/-! ## What the checks report -/

namespace Dims

variable {d : Dims} {f : Field} {i : Nat}

theorem expectKind_fails (kind : Field.Kind) :
    (Attempt.ofExcept (f.expectKind kind)).FailsWith (Failure.Reports AboutAccess) := by
  refine .ofCheck fun e he => ?_
  unfold Field.expectKind at he
  split at he
  · cases he
  · cases he
    trivial

theorem checkFieldStage_fails :
    (Attempt.ofExcept (d.checkFieldStage f i)).FailsWith (Failure.Reports AboutAccess) := by
  refine .ofCheck fun e he => ?_
  unfold checkFieldStage checkTransition checkStage at he
  split at he
  all_goals
    split at he
    · cases he
      trivial
    · cases he

theorem length_fails {expected found : Nat} :
    (Attempt.ofExcept (checkLength expected found)).FailsWith (Failure.Reports AboutAccess) := checkLength_fails trivial

theorem indices_fails {idx : List Nat} {limit : Nat} :
    (Attempt.ofExcept (checkIndices idx limit)).FailsWith (Failure.Reports AboutAccess) :=
  checkIndices_fails fun _ _ _ => trivial

variable (s : d.Addressable)
include s

theorem matSlot_fails : (d.matSlot f i).FailsWith (Failure.Reports AboutAccess) := by
  refine .bind (expectKind_fails _) fun _ hk => .bind checkFieldStage_fails fun _ hi => ?_
  have hk := Field.expectKind_eq_ok.mp (Attempt.ofExcept_eq_ok.mp hk)
  have hi := checkFieldStage_eq_ok.mp (Attempt.ofExcept_eq_ok.mp hi)
  have h := (matSlot_eq_ok s).mpr ⟨hk, hi, rfl⟩
  rw [matSlot, Field.expectKind_eq_ok.mpr hk, checkFieldStage_eq_ok.mpr hi] at h
  exact .require ⟨_, Attempt.require_eq_ok.mp h⟩

theorem vecSlot_fails : (d.vecSlot f i).FailsWith (Failure.Reports AboutAccess) := by
  refine .bind (expectKind_fails _) fun _ hk => .bind checkFieldStage_fails fun _ hi => ?_
  have hk := Field.expectKind_eq_ok.mp (Attempt.ofExcept_eq_ok.mp hk)
  have hi := checkFieldStage_eq_ok.mp (Attempt.ofExcept_eq_ok.mp hi)
  have h := (vecSlot_eq_ok s).mpr ⟨hk, hi, rfl⟩
  rw [vecSlot, Field.expectKind_eq_ok.mpr hk, checkFieldStage_eq_ok.mpr hi] at h
  exact .require ⟨_, Attempt.require_eq_ok.mp h⟩

theorem matrixShape_ends : (d.matrixShape f i).AnswersIff (f.kind = .matrix ∧ i < f.count d.N) AboutAccess := by
  refine ⟨?_, .bind (matSlot_fails s) fun _ _ => .ok _⟩
  simp only [matrixShape, Attempt.bind_eq_ok, matSlot_eq_ok s, Attempt.pure_eq_ok]
  constructor
  · rintro ⟨_, _, ⟨hk, hi, -⟩, -⟩
    exact ⟨hk, hi⟩
  · rintro ⟨hk, hi⟩
    exact ⟨_, _, ⟨hk, hi, rfl⟩, rfl⟩

theorem fieldLength_ends : (d.fieldLength f i).AnswersIff (i < f.count d.N) AboutAccess := by
  constructor
  · simp only [fieldLength_eq_ok s, exists_and_left, exists_eq', and_true]
  · unfold fieldLength
    cases hk : f.kind with
    | matrix => exact .bind (matSlot_fails s) fun _ _ => .ok _
    | vector => exact .bind (vecSlot_fails s) fun _ _ => .ok _
    | index =>
      refine .bind checkFieldStage_fails fun _ hi => .bind ?_ fun _ _ => .ok _
      have hi := checkFieldStage_eq_ok.mp (Attempt.ofExcept_eq_ok.mp hi)
      exact .require ⟨_, idxSlot?_eq s hk (stage_le hi)⟩

end Dims

/-- The field is of the kind, stage `i` has it, and it has `len` entries there. -/
structure Dims.Takes (d : Dims) (kind : Field.Kind) (f : Field) (i len : Nat) : Prop where
  ofKind : f.kind = kind
  stage : i < f.count d.N
  length : d.fieldLength f i = .ok len

/-- The name is that of a field of numbers with `len` entries at stage `i`. -/
def Dims.TakesNamed (d : Dims) (name : String) (i len : Nat) : Prop :=
  ∃ f, Field.ofName? name = some f ∧ (d.Takes .matrix f i len ∨ d.Takes .vector f i len)

theorem Dims.takes_iff {d : Dims} (s : d.Addressable) {kind : Field.Kind} {f : Field} {i len : Nat} :
    d.Takes kind f i len ↔ f.kind = kind ∧ i < f.count d.N ∧ d.lengthAt i f = len := by
  constructor
  · intro h
    exact ⟨h.ofKind, (Dims.fieldLength_eq_ok s).mp h.length⟩
  · rintro ⟨hk, hi, hlen⟩
    exact ⟨hk, hi, (Dims.fieldLength_eq_ok s).mpr ⟨hi, hlen⟩⟩

theorem Dims.takes_matrix {d : Dims} (s : d.Addressable) {f : Field} {i len : Nat} :
    d.Takes .matrix f i len ↔ ∃ slot, d.matSlot f i = .ok slot ∧ slot.rows * slot.cols = len := by
  simp only [takes_iff s, matSlot_eq_ok s]
  constructor
  · rintro ⟨hk, hi, hlen⟩
    exact ⟨_, ⟨hk, hi, rfl⟩, by simpa only [lengthAt, hk] using hlen⟩
  · rintro ⟨_, ⟨hk, hi, rfl⟩, hlen⟩
    exact ⟨hk, hi, by simpa only [lengthAt, hk] using hlen⟩

theorem Dims.takes_vector {d : Dims} (s : d.Addressable) {f : Field} {i len : Nat} :
    d.Takes .vector f i len ↔ ∃ slot, d.vecSlot f i = .ok slot ∧ slot.len = len := by
  simp only [takes_iff s, vecSlot_eq_ok s]
  constructor
  · rintro ⟨hk, hi, hlen⟩
    exact ⟨_, ⟨hk, hi, rfl⟩, by simpa only [lengthAt, hk] using hlen⟩
  · rintro ⟨_, ⟨hk, hi, rfl⟩, hlen⟩
    exact ⟨hk, hi, by simpa only [lengthAt, hk] using hlen⟩

/-- An access that finds the slot of the field, compares its length and then cannot fail. -/
theorem slot_ends {S β : Type} {slot : Attempt QpError S} (hslot : slot.FailsWith (Failure.Reports AboutAccess))
    {len : S → Nat} {found : Nat} {rest : S → Attempt QpError β}
    (hrest : ∀ s, slot = .ok s → len s = found → ∃ b, rest s = .ok b) :
    (slot >>= fun s => .ofExcept (checkLength (len s) found) >>= fun _ => rest s).AnswersIff
      (∃ s, slot = .ok s ∧ len s = found) AboutAccess := by
  constructor
  · simp only [Attempt.bind_eq_ok, Attempt.check_eq_ok, checkLength_eq_ok]
    constructor
    · rintro ⟨_, s, hs, hlen, -⟩
      exact ⟨s, hs, hlen⟩
    · rintro ⟨s, hs, hlen⟩
      rcases hrest s hs hlen with ⟨b, hb⟩
      exact ⟨b, s, hs, hlen, hb⟩
  · refine .bind hslot fun s hs => .bind Dims.length_fails fun _ hlen => ?_
    rcases hrest s hs (checkLength_eq_ok.mp (Attempt.ofExcept_eq_ok.mp hlen)) with ⟨b, hb⟩
    exact hb ▸ .ok b

/-- An access by name. -/
theorem named_ends {β : Type} {access : Field → Attempt QpError β} {p : Field → Prop}
    (ha : ∀ f, (access f).AnswersIff (p f) AboutAccess) (name : String) :
    (Qp.fieldNamed name >>= access).AnswersIff (∃ f, Field.ofName? name = some f ∧ p f) AboutAccess := by
  constructor
  · simp only [Qp.fieldNamed, Attempt.bind_eq_ok, Attempt.orReport_eq_ok]
    constructor
    · rintro ⟨b, f, hf, hb⟩
      exact ⟨f, hf, (ha f).answers.mp ⟨b, hb⟩⟩
    · rintro ⟨f, hf, hp⟩
      rcases (ha f).answers.mpr hp with ⟨b, hb⟩
      exact ⟨b, f, hf, hb⟩
  · exact .bind (.orReport trivial _) fun f _ => (ha f).fails

/-- An access to the field of a name, by its kind, that refuses index fields. -/
theorem byKind_ends {d : Dims} {f : Field} {i : Nat} {β : Type} {matrix vector : Attempt QpError β} {len : Nat}
    (hm : matrix.AnswersIff (d.Takes .matrix f i len) AboutAccess)
    (hv : vector.AnswersIff (d.Takes .vector f i len) AboutAccess) :
    (match f.kind with
      | .matrix => matrix
      | .vector => vector
      | .index => Attempt.fail (.fieldKind f .floatingPoint)).AnswersIff
      (d.Takes .matrix f i len ∨ d.Takes .vector f i len) AboutAccess := by
  cases hk : f.kind with
  | matrix =>
    refine ⟨hm.answers.trans ⟨.inl, fun ht => ht.resolve_right fun ht => ?_⟩, hm.fails⟩
    cases hk.symm.trans ht.ofKind
  | vector =>
    refine ⟨hv.answers.trans ⟨.inr, fun ht => ht.resolve_left fun ht => ?_⟩, hv.fails⟩
    cases hk.symm.trans ht.ofKind
  | index =>
    refine ⟨⟨fun ⟨b, hb⟩ => absurd hb Attempt.fail_ne_ok, ?_⟩, .error trivial⟩
    rintro (ht | ht) <;> cases hk.symm.trans ht.ofKind

namespace Qp

variable {α : Type} [Stored α] {q : Qp α} {f : Field} {i : Nat}

namespace Bound

variable (h : q.Bound)
include h

/-! ## Setting and getting a field -/

theorem setMatrix_ends [FixedWidth α] (data : List α) (order : Order) :
    (q.setMatrix f i data order).AnswersIff (q.dims.Takes .matrix f i data.length) AboutAccess := by
  rw [Dims.takes_matrix h.addressable]
  refine slot_ends (Dims.matSlot_fails h.addressable) fun s hs hlen => ?_
  obtain ⟨hk, hi, rfl⟩ := (Dims.matSlot_eq_ok h.addressable).mp hs
  rcases h.setMatrix_accepts hk hi hlen with ⟨q', hq'⟩
  rw [setMatrix, hs, Attempt.ok_bind, checkLength_eq_ok.mpr hlen] at hq'
  exact ⟨q', hq'⟩

theorem getMatrix_ends [Zero α] (len : Nat) (order : Order) :
    (q.getMatrix f i len order).AnswersIff (q.dims.Takes .matrix f i len) AboutAccess := by
  rw [Dims.takes_matrix h.addressable]
  refine slot_ends (Dims.matSlot_fails h.addressable) fun s hs hlen => ?_
  obtain ⟨hk, hi, rfl⟩ := (Dims.matSlot_eq_ok h.addressable).mp hs
  have hread := h.getMatrix_eq hk hi order hlen
  rw [getMatrix, hs, Attempt.ok_bind, checkLength_eq_ok.mpr hlen] at hread
  exact ⟨_, hread⟩

theorem setVector_ends [Zero α] [Neg α] [LawfulStored α] (data : List α) :
    (q.setVector f i data).AnswersIff (q.dims.Takes .vector f i data.length) AboutAccess := by
  rw [Dims.takes_vector h.addressable]
  refine slot_ends (Dims.vecSlot_fails h.addressable) fun s hs hlen => ?_
  obtain ⟨hk, hi, rfl⟩ := (Dims.vecSlot_eq_ok h.addressable).mp hs
  rcases h.setVector_accepts hk hi hlen with ⟨q', hq'⟩
  rw [setVector, hs, Attempt.ok_bind, checkLength_eq_ok.mpr hlen] at hq'
  exact ⟨q', hq'⟩

theorem getVector_ends [Neg α] (len : Nat) : (q.getVector f i len).AnswersIff (q.dims.Takes .vector f i len) AboutAccess := by
  rw [Dims.takes_vector h.addressable]
  refine slot_ends (Dims.vecSlot_fails h.addressable) fun s hs hlen => ?_
  obtain ⟨hk, hi, rfl⟩ := (Dims.vecSlot_eq_ok h.addressable).mp hs
  have hread := h.getVector_run hk hi hlen
  rw [getVector, hs, Attempt.ok_bind, checkLength_eq_ok.mpr hlen] at hread
  exact ⟨_, hread⟩

theorem setIndex_answers (data : List Nat) :
    (∃ q', q.setIndex f i data = .ok q') ↔ q.dims.Takes .index f i data.length ∧ ∀ n ∈ data, n < q.dims.limitAt i f := by
  have sh := h.addressable
  rw [Dims.takes_iff sh]
  constructor
  · rintro ⟨q', hq'⟩
    obtain ⟨hk, hi, limit, block, len, held, hlimit, hlt, hslot, hheld, hlen, -⟩ := setIndex_eq_ok.mp hq'
    have hk := Field.expectKind_eq_ok.mp hk
    have hi := Dims.checkFieldStage_eq_ok.mp hi
    have hj := Field.idxBlock_stage hk hi
    rw [Dims.indexLimit?_eq sh hk (Dims.stage_le hi)] at hlimit
    rw [Dims.idxSlot?_eq sh hk (Dims.stage_le hi)] at hslot
    cases hlimit
    cases hslot
    rw [h.indices?_eq, if_pos hj] at hheld
    cases hheld
    rw [h.length_words f.idxBlock.isFloat_region hj, f.idxBlock.entries_region] at hlen
    exact ⟨⟨hk, hi, by simpa only [Dims.lengthAt, hk] using hlen⟩, hlt⟩
  · rintro ⟨⟨hk, hi, hlen⟩, hlt⟩
    exact h.setIndex_accepts hk hi (by simpa only [Dims.lengthAt, hk] using hlen) hlt

/-- The write that ends an accepted call is there. -/
theorem setIndex_fails (data : List Nat) : (q.setIndex f i data).FailsWith (Failure.Reports AboutAccess) := by
  have sh := h.addressable
  refine .bind (Dims.expectKind_fails _) fun _ hk => .bind Dims.checkFieldStage_fails fun _ hi => ?_
  have hk := Field.expectKind_eq_ok.mp (Attempt.ofExcept_eq_ok.mp hk)
  have hi := Dims.checkFieldStage_eq_ok.mp (Attempt.ofExcept_eq_ok.mp hi)
  have hj := Field.idxBlock_stage hk hi
  have hlimit := Dims.indexLimit?_eq sh hk (Dims.stage_le hi)
  have hslot := Dims.idxSlot?_eq sh hk (Dims.stage_le hi)
  have hheld := (h.indices?_eq f.idxBlock i).trans (if_pos hj)
  refine .bind (.require ⟨_, hlimit⟩) fun limit hl => .bind Dims.indices_fails fun _ hlt => ?_
  refine .bind (.require ⟨_, hslot⟩) fun slot hs => ?_
  cases hslot.symm.trans (Attempt.require_eq_ok.mp hs)
  refine .bind (.require ⟨_, hheld⟩) fun held hw => .bind Dims.length_fails fun _ hlen => ?_
  cases hheld.symm.trans (Attempt.require_eq_ok.mp hw)
  cases hlimit.symm.trans (Attempt.require_eq_ok.mp hl)
  have hlt := checkIndices_eq_ok.mp (Attempt.ofExcept_eq_ok.mp hlt)
  have hlen := checkLength_eq_ok.mp (Attempt.ofExcept_eq_ok.mp hlen)
  rw [h.length_words f.idxBlock.isFloat_region hj, f.idxBlock.entries_region] at hlen
  rcases h.setIndex_accepts hk hi hlen hlt with ⟨q', hq'⟩
  obtain ⟨-, -, _, _, _, _, -, -, hslot', -, -, hwrite⟩ := setIndex_eq_ok.mp hq'
  cases hslot.symm.trans hslot'
  exact .require ⟨q', hwrite⟩

theorem setIndex_ends (data : List Nat) :
    (q.setIndex f i data).AnswersIff
      (q.dims.Takes .index f i data.length ∧ ∀ n ∈ data, n < q.dims.limitAt i f) AboutAccess :=
  ⟨h.setIndex_answers data, h.setIndex_fails data⟩

theorem getIndex_ends (len : Nat) : (q.getIndex f i len).AnswersIff (q.dims.Takes .index f i len) AboutAccess := by
  have sh := h.addressable
  constructor
  · rw [Dims.takes_iff sh]
    constructor
    · rintro ⟨xs, hxs⟩
      simp only [getIndex, Attempt.bind_eq_ok, Attempt.check_eq_ok, checkLength_eq_ok, Attempt.require_eq_ok] at hxs
      obtain ⟨hk, hi, slot, hslot, held, hheld, hlen, -⟩ := hxs
      have hk := Field.expectKind_eq_ok.mp hk
      have hi := Dims.checkFieldStage_eq_ok.mp hi
      have hj := Field.idxBlock_stage hk hi
      rw [Dims.idxSlot?_eq sh hk (Dims.stage_le hi)] at hslot
      cases hslot
      rw [h.indices?_eq, if_pos hj] at hheld
      cases hheld
      rw [h.length_words f.idxBlock.isFloat_region hj, f.idxBlock.entries_region] at hlen
      exact ⟨hk, hi, by simpa only [Dims.lengthAt, hk] using hlen⟩
    · rintro ⟨hk, hi, hlen⟩
      simp only [Dims.lengthAt, hk] at hlen
      exact ⟨_, hlen ▸ h.getIndex_eq hk hi⟩
  · refine .bind (Dims.expectKind_fails _) fun _ hk => .bind Dims.checkFieldStage_fails fun _ hi => ?_
    have hk := Field.expectKind_eq_ok.mp (Attempt.ofExcept_eq_ok.mp hk)
    have hi := Dims.checkFieldStage_eq_ok.mp (Attempt.ofExcept_eq_ok.mp hi)
    have hslot := Dims.idxSlot?_eq sh hk (Dims.stage_le hi)
    refine .bind (.require ⟨_, hslot⟩) fun slot hs => ?_
    cases hslot.symm.trans (Attempt.require_eq_ok.mp hs)
    exact .bind (.require ⟨_, (h.indices?_eq f.idxBlock i).trans (if_pos (Field.idxBlock_stage hk hi))⟩) fun _ _ =>
      .bind Dims.length_fails fun _ _ => .ok _

/-! ## By name -/

theorem set_ends [Zero α] [Neg α] [LawfulStored α] (name : String) (data : List α) :
    (q.set name i data).AnswersIff (q.dims.TakesNamed name i data.length) AboutAccess :=
  named_ends (fun _ => byKind_ends (h.setMatrix_ends data .columnMajor) (h.setVector_ends data)) name

theorem get_ends [Zero α] [Neg α] (name : String) (len : Nat) :
    (q.get name i len).AnswersIff (q.dims.TakesNamed name i len) AboutAccess :=
  named_ends (fun _ => byKind_ends (h.getMatrix_ends len .columnMajor) (h.getVector_ends len)) name

end Bound

end Qp

/-! ## Loading -/

namespace Dims

variable {α : Type} {d : Dims} {i : Nat} {f : Field} (s : d.Addressable)
include s

theorem checkFloats_fails (data : List α) : (d.checkFloats i f data).FailsWith (Failure.Reports AboutAccess) :=
  .bind (fieldLength_ends s).fails fun _ _ => length_fails

theorem checkIndexField_fails (hk : f.kind = .index) (data : List Nat) :
    (d.checkIndexField i f data).FailsWith (Failure.Reports AboutAccess) := by
  refine .bind (fieldLength_ends s).fails fun _ hlen => .bind length_fails fun _ _ => ?_
  have hi := ((fieldLength_eq_ok s).mp hlen).1
  exact .bind (.require ⟨_, indexLimit?_eq s hk (stage_le hi)⟩) fun _ _ => indices_fails

theorem checkStages_fails (stages : List (StageData α)) :
    (d.checkStages i stages).FailsWith (Failure.Reports AboutAccess) := by
  induction stages generalizing i with
  | nil => exact .ok ()
  | cons stage stages ih =>
    refine .bind (.bind (.forM fun _ _ => checkFloats_fails s _) fun _ _ => .forM fun entry hentry => ?_) fun _ _ => ih
    exact checkIndexField_fails s (StageData.kind_indices hentry) _

end Dims

/-- What a load takes: the data of every stage, and of no other. -/
structure Dims.TakesStages {α : Type} (d : Dims) (stages : List (StageData α)) : Prop where
  count : stages.length = d.N + 1
  each : ∀ i s, stages[i]? = some s → d.TakesStage i s

namespace Qp

variable {α : Type} [Stored α]

/-- The checks of a load, which change nothing. -/
def checkLoad (stages : List (StageData α)) (q : Qp α) : Attempt QpError (Qp α) := do
  .ofExcept (checkLength q.dims.stages stages.length)
  q.dims.checkStages 0 stages
  pure q

variable [Neg α]

/-- A load in place: the checks, the clearing of the numbers, then field after field. -/
def loadSteps (stages : List (StageData α)) (order : Order) : List (Qp α → Attempt QpError (Qp α)) :=
  checkLoad stages :: (fun q => .require q.cleared) :: (Write.fromStage 0 stages).map (Write.run order)

/-- Setting a vector in place: the checks and the part of the vector, then the last row that
    repeats it, if there is one. -/
def vectorSteps (f : Field) (i : Nat) (data : List α) : List (Qp α → Attempt QpError (Qp α)) := [
  fun q => do
    let s ← q.dims.vecSlot f i
    .ofExcept (checkLength s.len data.length)
    let x ← .require (q.vector? s.block i)
    let x ← .require (s.store? data x)
    .require (q.writeVector? s.block i x),
  fun q => do
    let s ← q.dims.vecSlot f i
    q.setAugmented i data s.augmented]

omit [Stored α] [Neg α] in
theorem checkLoad_eq_ok {q q' : Qp α} (s : q.dims.Addressable) {stages : List (StageData α)} :
    checkLoad stages q = .ok q' ↔ q.dims.TakesStages stages ∧ q = q' := by
  simp only [checkLoad, Attempt.check_eq_ok, checkLength_eq_ok, Attempt.bind_eq_ok, Attempt.pure_eq_ok]
  constructor
  · rintro ⟨hcount, ⟨⟩, hchecks, rfl⟩
    refine ⟨⟨hcount.symm, fun i stage hi => ?_⟩, rfl⟩
    have h := (checkStages_eq_ok s).mp hchecks i stage hi
    rwa [Nat.zero_add] at h
  · rintro ⟨⟨hcount, heach⟩, rfl⟩
    refine ⟨hcount.symm, (), (checkStages_eq_ok s).mpr fun i stage hi => ?_, rfl⟩
    rw [Nat.zero_add]
    exact heach i stage hi

theorem load_eq_inTurn (stages : List (StageData α)) (order : Order) (q : Qp α) :
    q.load stages order = inTurn (loadSteps stages order) q := by
  have hwrites : inTurn ((Write.fromStage 0 stages).map (Write.run order)) = writeStages order 0 stages :=
    funext fun _ => Write.runs_fromStage
  rw [loadSteps, inTurn_cons, checkLoad, load]
  simp only [bind_assoc, pure_bind, inTurn_cons, hwrites]

namespace Bound

variable {q : Qp α} (h : q.Bound)
include h

section Loading

variable [Zero α] [LawfulStored α]

/-- No step of a load fails once the checks went through. -/
theorem load_goes_through {stages : List (StageData α)} (ht : q.dims.TakesStages stages) (order : Order) :
    ∃ q', inTurn ((fun q => .require q.cleared) :: (Write.fromStage 0 stages).map (Write.run order)) q = .ok q' := by
  rcases h.exists_cleared with ⟨q₁, hc, hk⟩
  have hfits : ∀ w ∈ Write.fromStage 0 stages, w.Fits q₁.dims := by
    rw [hk.dims]
    refine fits_fromStage.mp fun i s hi => ?_
    rw [Nat.zero_add]
    exact ht.each i s hi
  rcases Write.runs_accept (hk.bound h) hfits order with ⟨q', hq'⟩
  refine ⟨q', ?_⟩
  rw [inTurn_cons, hc]
  exact hq'

theorem load_ends (stages : List (StageData α)) (order : Order) :
    (q.load stages order).AnswersIff (q.dims.TakesStages stages) AboutAccess := by
  have sh := h.addressable
  rw [load_eq_inTurn, loadSteps, inTurn_cons]
  constructor
  · simp only [Attempt.bind_eq_ok, checkLoad_eq_ok sh]
    constructor
    · rintro ⟨_, _, ⟨ht, -⟩, -⟩
      exact ht
    · intro ht
      rcases h.load_goes_through ht order with ⟨q', hq'⟩
      exact ⟨q', q, ⟨ht, rfl⟩, hq'⟩
  · refine .bind ?_ fun q₁ hq₁ => ?_
    · exact .bind Dims.length_fails fun _ _ => .bind (Dims.checkStages_fails sh stages) fun _ _ => .ok q
    · rcases (checkLoad_eq_ok sh).mp hq₁ with ⟨ht, rfl⟩
      rcases h.load_goes_through ht order with ⟨q', hq'⟩
      exact hq' ▸ .ok q'

/-- A load does everything or nothing. -/
theorem load_inPlace (stages : List (StageData α)) (order : Order) :
    inPlace (loadSteps stages order) q = allOrNothing q (q.load stages order) := by
  rw [load_eq_inTurn]
  refine inPlace_guarded fun q₁ hq₁ => ?_
  rcases (checkLoad_eq_ok h.addressable).mp hq₁ with ⟨ht, rfl⟩
  exact h.load_goes_through ht order

theorem setVector_eq_inTurn (f : Field) (i : Nat) (data : List α) :
    q.setVector f i data = inTurn (vectorSteps f i data) q := by
  rw [vectorSteps, inTurn_cons, setVector]
  cases hs : q.dims.vecSlot f i with
  | error failure => rfl
  | ok s =>
    simp only [Attempt.ok_bind, bind_assoc]
    refine bind_congr fun _ => bind_congr fun x => bind_congr fun y => ?_
    cases hw : q.writeVector? s.block i y with
    | none => rfl
    | some q₁ =>
      -- the slot is the one that the first step found
      have hdims : q₁.dims = q.dims := (h.writeVector?_eq_some.mp hw).2.dims
      rw [Attempt.require_some, Attempt.ok_bind, Attempt.ok_bind, inTurn_cons, hdims, hs, Attempt.ok_bind]
      exact (bind_pure _).symm

/-- Setting a vector does everything or nothing. -/
theorem setVector_inPlace (f : Field) (i : Nat) (data : List α) :
    inPlace (vectorSteps f i data) q = allOrNothing q (q.setVector f i data) := by
  rw [h.setVector_eq_inTurn]
  refine inPlace_guarded fun q₁ hq₁ => ?_
  have hguard := hq₁
  simp only [Attempt.bind_eq_ok, Attempt.check_eq_ok, checkLength_eq_ok] at hguard
  obtain ⟨s, hs, hlen, -⟩ := hguard
  obtain ⟨hk, hi, rfl⟩ := (Dims.vecSlot_eq_ok h.addressable).mp hs
  rcases h.setVector_accepts hk hi hlen with ⟨q', hq'⟩
  rw [h.setVector_eq_inTurn, vectorSteps, inTurn_cons, hq₁] at hq'
  exact ⟨q', hq'⟩

end Loading

end Bound

/-! ## What a reader gets -/

omit [Neg α] in
theorem length_getMatrix [Zero α] {q : Qp α} {f : Field} {i len : Nat} {order : Order} {xs : List α}
    (h : q.getMatrix f i len order = .ok xs) : xs.length = len := by
  simp only [getMatrix, Attempt.bind_eq_ok, Attempt.check_eq_ok, checkLength_eq_ok, Attempt.require_eq_ok, MatSlot.load?,
    Option.ite_none_right_eq_some, Option.some.injEq] at h
  obtain ⟨s, -, hlen, M, -, -, rfl⟩ := h
  rw [MatSlot.length_load, hlen]

theorem length_getVector {q : Qp α} {f : Field} {i len : Nat} {xs : List α} (h : q.getVector f i len = .ok xs) :
    xs.length = len := by
  simp only [getVector, Attempt.bind_eq_ok, Attempt.check_eq_ok, checkLength_eq_ok, Attempt.require_eq_ok] at h
  obtain ⟨s, -, hlen, x, -, hload⟩ := h
  have hinside : s.offset + s.len ≤ x.length := by
    unfold VecSlot.load? at hload
    split at hload
    · assumption
    · cases hload
  rw [VecSlot.load?_eq hinside] at hload
  cases hload
  rw [VecSlot.length_held, List.length_take, List.length_drop]
  omega

omit [Stored α] [Neg α] in
theorem length_getIndex {q : Qp α} {f : Field} {i len : Nat} {ns : List Nat} (h : q.getIndex f i len = .ok ns) :
    ns.length = len := by
  simp only [getIndex, Attempt.bind_eq_ok, Attempt.check_eq_ok, checkLength_eq_ok, Attempt.pure_eq_ok] at h
  obtain ⟨-, -, _, -, held, -, hlen, rfl⟩ := h
  exact hlen

theorem length_get [Zero α] {q : Qp α} {name : String} {i len : Nat} {xs : List α} (h : q.get name i len = .ok xs) :
    xs.length = len := by
  rcases Attempt.bind_eq_ok.mp h with ⟨f, -, h⟩
  split at h
  · exact length_getMatrix h
  · exact length_getVector h
  · exact absurd h Attempt.fail_ne_ok

/-! ## All accesses -/

/-- How every access to the fields of a problem ends. -/
structure Marshals [Zero α] (q : Qp α) : Prop where
  matrixShape : ∀ f i, (q.dims.matrixShape f i).AnswersIff (f.kind = .matrix ∧ i < f.count q.dims.N) AboutAccess
  fieldLength : ∀ f i, (q.dims.fieldLength f i).AnswersIff (i < f.count q.dims.N) AboutAccess
  setMatrix : ∀ f i data order,
    (q.setMatrix f i data order).AnswersIff (q.dims.Takes .matrix f i data.length) AboutAccess
  setVector : ∀ f i data, (q.setVector f i data).AnswersIff (q.dims.Takes .vector f i data.length) AboutAccess
  setIndex : ∀ f i data, (q.setIndex f i data).AnswersIff
    (q.dims.Takes .index f i data.length ∧ ∀ n ∈ data, n < q.dims.limitAt i f) AboutAccess
  set : ∀ name i data, (q.set name i data).AnswersIff (q.dims.TakesNamed name i data.length) AboutAccess
  load : ∀ stages order, (q.load stages order).AnswersIff (q.dims.TakesStages stages) AboutAccess
  /-- A read asks for what a write of as many entries does. -/
  getMatrix : ∀ f i len order, (q.getMatrix f i len order).AnswersIff (q.dims.Takes .matrix f i len) AboutAccess
  getVector : ∀ f i len, (q.getVector f i len).AnswersIff (q.dims.Takes .vector f i len) AboutAccess
  getIndex : ∀ f i len, (q.getIndex f i len).AnswersIff (q.dims.Takes .index f i len) AboutAccess
  get : ∀ name i len, (q.get name i len).AnswersIff (q.dims.TakesNamed name i len) AboutAccess
  /-- A read that answers fills its buffer. -/
  fills : ∀ f name i len order, (∀ xs, q.getMatrix f i len order = .ok xs → xs.length = len) ∧
    (∀ xs, q.getVector f i len = .ok xs → xs.length = len) ∧
    (∀ ns, q.getIndex f i len = .ok ns → ns.length = len) ∧ ∀ xs, q.get name i len = .ok xs → xs.length = len
  /-- A call that writes more than once does everything or nothing. -/
  vectorInPlace : ∀ f i data, inPlace (vectorSteps f i data) q = allOrNothing q (q.setVector f i data)
  loadInPlace : ∀ stages order, inPlace (loadSteps stages order) q = allOrNothing q (q.load stages order)

/-- The accesses to every reachable problem are total, and change nothing when they fail. -/
theorem marshalling [Zero α] [LawfulStored α] {q : Qp α} (hq : q.Reachable) : q.Marshals where
  matrixShape _ _ := Dims.matrixShape_ends hq.bound.addressable
  fieldLength _ _ := Dims.fieldLength_ends hq.bound.addressable
  setMatrix _ _ data order := hq.bound.setMatrix_ends data order
  setVector _ _ data := hq.bound.setVector_ends data
  setIndex _ _ data := hq.bound.setIndex_ends data
  set name _ data := hq.bound.set_ends name data
  load stages order := hq.bound.load_ends stages order
  getMatrix _ _ len order := hq.bound.getMatrix_ends len order
  getVector _ _ len := hq.bound.getVector_ends len
  getIndex _ _ len := hq.bound.getIndex_ends len
  get name _ len := hq.bound.get_ends name len
  fills _ _ _ _ _ := ⟨fun _ => length_getMatrix, fun _ => length_getVector, fun _ => length_getIndex, fun _ => length_get⟩
  vectorInPlace f i data := hq.bound.setVector_inPlace f i data
  loadInPlace stages order := hq.bound.load_inPlace stages order

/-- The last stage of two has no dynamics, and a load without stages changes nothing. -/
theorem marshalling_two_stages : ∃ q : Qp Binary.Double, q.Reachable ∧ (∃ q', q.setVector .b 0 [1] = .ok q') ∧
    (∃ e, q.setVector .b 1 [1] = .error (.reported e)) ∧ (∃ e, q.load [] .rowMajor = .error (.reported e)) ∧
    (inPlace (loadSteps [] .rowMajor) q).1 = q := by
  have hd : Dims.Consistent ⟨1, [2, 1], [1, 0], [2, 1], [1, 0], [1, 1], [1, 0], [1, 1]⟩ := by decide
  obtain ⟨q, hb, hq, -⟩ := @bind_filled Binary.Double _ _ hd _ rfl
  have hr : q.Reachable := .bind hd hb
  have hm := marshalling hr
  have htakes : q.dims.Takes .vector .b 0 1 :=
    ⟨rfl, by rw [hq]; decide, (Dims.fieldLength_eq_ok hr.bound.addressable).mpr (by rw [hq]; decide)⟩
  have hlast : ¬q.dims.Takes .vector .b 1 1 := by
    intro ht
    have hstage := ht.stage
    rw [hq] at hstage
    revert hstage
    decide
  have hload : ¬q.dims.TakesStages ([] : List (StageData Binary.Double)) := fun ht => absurd ht.count (by simp)
  rcases (hm.setVector .b 1 [1]).refuses hlast with ⟨e, he, -⟩
  rcases (hm.load [] .rowMajor).refuses hload with ⟨e', he', -⟩
  refine ⟨q, hr, (hm.setVector .b 0 [1]).answers.mpr htakes, ⟨e, he⟩, ⟨e', he'⟩, ?_⟩
  rw [hm.loadInPlace, he']
  rfl

end Qp

end HorizonQp
