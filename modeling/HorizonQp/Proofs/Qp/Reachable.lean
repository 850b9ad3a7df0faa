/-
  HorizonQp.Proofs.Qp.Reachable — what every problem in its block satisfies.

  A problem is `Reachable` when it was laid out for consistent dimensions and then went
  through any calls, accepted or refused, any writes over its views, and any release of
  its block followed by a new layout in it. Every reachable problem is `Intact`: its
  dimensions are consistent, its tables of headers are those of its layout, and every
  array of every stage is there, in the shape the dimensions say, aligned, inside the
  region of its kind and apart from every other array (`intact_of_reachable`).

  The step is `call_bound`: a call keeps `Qp.Bound`, and a bound problem is intact
  (`Bound.intact`). `Obtained` is the same without a word on the dimensions, and every
  obtained problem is in its block (`Obtained.laid`).
-/

import HorizonQp.Binary.Numbers
import HorizonQp.Proofs.Qp.Repack

namespace HorizonQp

open Linear (Matrix Order)

/-- A call on a problem, or a write over one of its views. -/
inductive Call (α : Type) where
  | set (name : String) (stage : Nat) (data : List α)
  | setMatrix (f : Field) (stage : Nat) (data : List α) (order : Order)
  | setVector (f : Field) (stage : Nat) (data : List α)
  | setIndex (f : Field) (stage : Nat) (data : List Nat)
  | load (stages : List (StageData α)) (order : Order)
  | resize (nbu nbx : List Nat)
  | writeMatrix (block : MatBlock) (stage : Nat) (data : List α)
  | writeVector (block : VecBlock) (stage : Nat) (data : List α)
  | writeIndices (block : IdxBlock) (stage : Nat) (data : List Nat)

namespace Call

variable {α : Type} [Stored α] [Neg α]

def run (q : Qp α) : Call α → Attempt QpError (Qp α)
  | .set name stage data => q.set name stage data
  | .setMatrix f stage data order => q.setMatrix f stage data order
  | .setVector f stage data => q.setVector f stage data
  | .setIndex f stage data => q.setIndex f stage data
  | .load stages order => q.load stages order
  | .resize nbu nbx => q.resize nbu nbx
  | .writeMatrix block stage data => .require (q.writeMatrix? block stage data)
  | .writeVector block stage data => .require (q.writeVector? block stage data)
  | .writeIndices block stage data => .require (q.writeIndices? block stage data)

/-- The problem after a call. One that fails leaves it as it was. -/
def after (q : Qp α) (c : Call α) : Qp α :=
  match c.run q with
  | .ok q' => q'
  | .error _ => q

theorem after_of_ok {q q' : Qp α} {c : Call α} (h : c.run q = .ok q') : c.after q = q' := by rw [after, h]

theorem after_of_error {q : Qp α} {c : Call α} {failure : Failure QpError} (h : c.run q = .error failure) :
    c.after q = q := by rw [after, h]

end Call

namespace Qp

variable {α : Type} [Stored α]

/-- The bytes of the array of a kind at stage `i`, as its header in the block says: the first and how many. -/
def extent? (q : Qp α) (kind : RegionKind) (i : Nat) : Option (Nat × Nat) :=
  let index (block : IdxBlock) := (q.idxHeader? block i).map fun h => (h.offset, h.len * Word.width)
  let matrix (block : MatBlock) := (q.matHeader? block i).map fun h => (h.offset, h.rows * h.cols * Stored.width α)
  let vector (block : VecBlock) := (q.vecHeader? block i).map fun h => (h.offset, h.len * Stored.width α)
  match kind with
  | .idxHeaders | .matHeaders | .vecHeaders => none
  | .idxb => index .idxb
  | .idxs => index .idxs
  | .BAbt => matrix .BAbt
  | .RSQrq => matrix .RSQrq
  | .DCt => matrix .DCt
  | .Z => vector .Z
  | .rqz => vector .rqz
  | .b => vector .b
  | .d => vector .d
  | .m => vector .m

/-- What holds of a problem in its block. -/
structure Intact (q : Qp α) : Prop where
  shaped : q.dims.Shaped
  bounds : ∀ i ≤ q.dims.N, q.dims.nbAt i = q.dims.nbuAt i + q.dims.nbxAt i ∧ q.dims.nbuAt i ≤ q.dims.nuAt i ∧
    q.dims.nbxAt i ≤ q.dims.nxAt i
  idxHeaders : q.idxHeaders? = some q.layout.idxHeaders
  matHeaders : q.matHeaders? = some q.layout.matHeaders
  vecHeaders : q.vecHeaders? = some q.layout.vecHeaders
  /-- Every array is there, in its shape. -/
  matrix : ∀ block i, i < block.region.count q.dims.N →
    ∃ M, q.matrix? block i = some M ∧ (M.rows, M.cols) = block.shape q.dims i ∧ M.WellShaped
  vector : ∀ block i, i < block.region.count q.dims.N →
    ∃ x, q.vector? block i = some x ∧ x.length = block.len q.dims i
  indices : ∀ block i, i < block.region.count q.dims.N →
    ∃ x, q.indices? block i = some x ∧ x.length = block.len q.dims i
  /-- It starts at a multiple of its element size and lies in the region of its kind. -/
  placed : ∀ kind i, i < kind.count q.dims.N → ∃ start len, q.extent? kind i = some (start, len) ∧
    kind.entryWidth (Stored.width α) ∣ start ∧ (q.layout.region kind).offset ≤ start ∧
    start + len ≤ (q.layout.region kind).finish
  apart : ∀ kind i start len kind' i' start' len', q.extent? kind i = some (start, len) →
    q.extent? kind' i' = some (start', len') → (kind, i) ≠ (kind', i') → start + len ≤ start' ∨ start' + len' ≤ start
  /-- The regions lie in order in the covered bytes, which the block has. -/
  kinds : q.layout.regions.map Region.kind = RegionKind.all
  ordered : q.layout.regions.Pairwise fun r s => r.finish ≤ s.offset
  inside : ∀ r ∈ q.layout.regions, r.finish ≤ q.layout.used
  room : q.block.base + q.layout.used ≤ q.block.size

/-- The problems that calls lead to. -/
inductive Reachable [Neg α] : Qp α → Prop where
  | bind {d : Dims} {b : Block} {q : Qp α} : d.Consistent → bind d b = .ok q → Reachable q
  | call {q : Qp α} (c : Call α) : Reachable q → Reachable (c.after q)
  | rebind {q q' : Qp α} {d : Dims} : Reachable q → d.Consistent → Qp.bind d q.release = .ok q' → Reachable q'

/-- The problems that calls lead to, whatever the dimensions they were laid out for. -/
inductive Obtained [Neg α] : Qp α → Prop where
  | bind {d : Dims} {b : Block} {q : Qp α} : Qp.bind d b = .ok q → Obtained q
  | call {q : Qp α} (c : Call α) : Obtained q → Obtained (c.after q)

/-- A problem laid out for a record that was built from its stages is reachable: there is no
    need to ask that the record is consistent, the plan sees to it. -/
theorem Reachable.of_ofStages [Neg α] {d : Dims} {nx nu nbu nbx ng ns : List Nat}
    (hd : Dims.ofStages nx nu nbu nbx ng ns = .ok d) {b : Block} {q : Qp α} (hb : Qp.bind d b = .ok q) : q.Reachable :=
  have ⟨_, hl, _⟩ := bind_eq_ok.mp hb
  .bind (Dims.consistent_of_ofStages hd hl) hb

theorem Reachable.obtained [Neg α] {q : Qp α} (h : q.Reachable) : q.Obtained := by
  induction h with
  | bind _ hb => exact .bind hb
  | call c _ ih => exact .call c ih
  | rebind _ _ hb _ => exact .bind hb

/-! ## A bound problem is intact -/

namespace Bound

variable {q : Qp α} (h : q.Bound)
include h

/-- The header of an array says where the dimensions place it. -/
theorem extent?_eq (kind : RegionKind) (i : Nat) :
    q.extent? kind i = if i < kind.count q.dims.N then some (q.placeOf kind i, q.bytesOf kind i) else none := by
  have index : ∀ block : IdxBlock, ((q.idxHeader? block i).map fun h => (h.offset, h.len * Word.width)) =
      if i < block.region.count q.dims.N then some (q.placeOf block.region i, q.bytesOf block.region i) else none := by
    intro block
    rw [h.idxHeader?_eq]
    split
    · cases block <;> rfl
    · rfl
  have matrix : ∀ block : MatBlock,
      ((q.matHeader? block i).map fun h => (h.offset, h.rows * h.cols * Stored.width α)) =
      if i < block.region.count q.dims.N then some (q.placeOf block.region i, q.bytesOf block.region i) else none := by
    intro block
    rw [h.matHeader?_eq]
    split
    · cases block <;> rfl
    · rfl
  have vector : ∀ block : VecBlock, ((q.vecHeader? block i).map fun h => (h.offset, h.len * Stored.width α)) =
      if i < block.region.count q.dims.N then some (q.placeOf block.region i, q.bytesOf block.region i) else none := by
    intro block
    rw [h.vecHeader?_eq]
    split
    · cases block <;> rfl
    · rfl
  cases kind with
  | idxHeaders => rfl
  | matHeaders => rfl
  | vecHeaders => rfl
  | idxb => exact index .idxb
  | idxs => exact index .idxs
  | BAbt => exact matrix .BAbt
  | RSQrq => exact matrix .RSQrq
  | DCt => exact matrix .DCt
  | Z => exact vector .Z
  | rqz => exact vector .rqz
  | b => exact vector .b
  | d => exact vector .d
  | m => exact vector .m

theorem extent?_eq_some {kind : RegionKind} {i start len : Nat} (he : q.extent? kind i = some (start, len)) :
    i < kind.count q.dims.N ∧ start = q.placeOf kind i ∧ len = q.bytesOf kind i := by
  rw [h.extent?_eq] at he
  split at he
  · cases he
    exact ⟨‹_›, rfl, rfl⟩
  · cases he

theorem intact [FixedWidth α] : q.Intact where
  shaped := h.dims.shaped
  bounds := (Dims.consistent_iff.mp h.dims).2
  idxHeaders := h.tables.1
  matHeaders := h.tables.2.1
  vecHeaders := h.tables.2.2
  matrix block i hi := ⟨_, (h.matrix?_eq block i).trans (if_pos hi), rfl, h.matrixAt_wellShaped hi⟩
  vector block i hi := by
    have hl := h.length_numbers block.isFloat_region hi
    rw [block.entries_region] at hl
    exact ⟨_, by rw [h.vector?_eq, if_pos hi], hl⟩
  indices block i hi := by
    have hl := h.length_words block.isFloat_region hi
    rw [block.entries_region] at hl
    exact ⟨_, by rw [h.indices?_eq, if_pos hi], hl⟩
  placed kind i hi := by
    have hin := h.layout.array_inside hi
    have hle := kind.bytes_le_stride (Stored.width α) q.dims i
    refine ⟨q.placeOf kind i, q.bytesOf kind i, by rw [h.extent?_eq, if_pos hi],
      h.layout.entryWidth_dvd_offsetOf FixedWidth.width_dvd kind i, hin.1, ?_⟩
    unfold placeOf bytesOf
    omega
  apart kind i start len kind' i' start' len' he he' hne := by
    obtain ⟨hi, rfl, rfl⟩ := h.extent?_eq_some he
    obtain ⟨hi', rfl, rfl⟩ := h.extent?_eq_some he'
    exact h.layout.array_apart hi hi' hne
  kinds := h.layout.kinds
  ordered := h.layout.ordered
  inside := h.layout.inside
  room := h.room

end Bound

/-! ## Every call keeps a problem in its block -/

variable [FixedWidth α] [Neg α]

/-- A call keeps dimensions and layout, or is a resize that is accepted. -/
theorem after_cases {q : Qp α} (h : q.Laid) (c : Call α) :
    q.Kept (c.after q) ∨ ∃ nbu nbx, q.resize nbu nbx = .ok (c.after q) := by
  cases hr : c.run q with
  | error failure =>
    rw [Call.after_of_error hr]
    exact Or.inl (Kept.refl h)
  | ok q' =>
    rw [Call.after_of_ok hr]
    cases c with
    | set name stage data => exact Or.inl (h.set hr)
    | setMatrix f stage data order => exact Or.inl (h.setMatrix hr)
    | setVector f stage data => exact Or.inl (h.setVector hr)
    | setIndex f stage data => exact Or.inl (h.setIndex hr)
    | load stages order => exact Or.inl (h.load hr)
    | resize nbu nbx => exact Or.inr ⟨nbu, nbx, hr⟩
    | writeMatrix block stage data => exact Or.inl ((h.writeMatrix?_eq_some.mp (Attempt.require_eq_ok.mp hr)).2.kept h)
    | writeVector block stage data => exact Or.inl ((h.writeVector?_eq_some.mp (Attempt.require_eq_ok.mp hr)).2.kept h)
    | writeIndices block stage data => exact Or.inl ((h.writeIndices?_eq_some.mp (Attempt.require_eq_ok.mp hr)).2.kept h)

theorem call_laid {q : Qp α} (h : q.Laid) (c : Call α) : (c.after q).Laid := by
  rcases after_cases h c with k | ⟨nbu, nbx, hr⟩
  · exact k.laid
  · exact h.resize hr

theorem call_bound {q : Qp α} (h : q.Bound) (c : Call α) : (c.after q).Bound := by
  rcases after_cases h.toLaid c with k | ⟨nbu, nbx, hr⟩
  · exact k.bound h
  · exact h.resize hr

theorem Obtained.laid {q : Qp α} (h : q.Obtained) : q.Laid := by
  induction h with
  | bind hb => exact laid_of_bind hb
  | call c _ ih => exact call_laid ih c

theorem Reachable.bound {q : Qp α} (h : q.Reachable) : q.Bound := by
  induction h with
  | bind hd hb => exact bound_of_bind hd hb
  | call c _ ih => exact call_bound ih c
  | rebind _ hd hb _ => exact bound_of_bind hd hb

/-- Every reachable problem is intact. -/
theorem intact_of_reachable {q : Qp α} (h : q.Reachable) : q.Intact := h.bound.intact

omit [FixedWidth α] [Neg α] in
/-- A block of the planned size that starts at its base is accepted. -/
theorem bind_filled {d : Dims} (hd : d.Consistent) {l : Layout} (hl : Layout.plan (Stored.width α) d = .ok l) :
    ∃ q : Qp α, bind d (.filled l.memsize 0) = .ok q ∧ q.dims = d ∧ q.layout = l := by
  have hsize : (Block.filled l.memsize 0).size = l.memsize := Array.size_replicate
  have hmem := (Layout.plan_sound hd.shaped.spanned hl).memsize
  refine bind_accepts hd.shaped.spanned hl (Nat.le_of_eq hsize.symm) ?_
  show 0 + l.used ≤ (Block.filled l.memsize 0).size
  omega

theorem intact_two_stages : ∃ q : Qp Binary.Double,
    q.dims = ⟨1, [2, 1], [1, 0], [2, 1], [1, 0], [1, 1], [1, 0], [1, 1]⟩ ∧ q.Reachable ∧ q.Intact := by
  have hd : Dims.Consistent ⟨1, [2, 1], [1, 0], [2, 1], [1, 0], [1, 1], [1, 0], [1, 1]⟩ := by decide
  obtain ⟨q, hb, hq, -⟩ := @bind_filled Binary.Double _ _ hd _ rfl
  have hr : q.Reachable := .bind hd hb
  exact ⟨q, hq, hr, intact_of_reachable hr⟩

end Qp

end HorizonQp
