/-
  HorizonQp.Proofs.Qp.Admission — which records of dimensions give a problem.

  Nothing checks a record before it is planned or bound. A plan looks only at the entries it
  counts, so binding goes on with any record that has those, and breaks in the table of index
  headers when `nb` or `ns` lists more stages than there are (`Dims.Overfull`). What is bound in
  the end is `Dims.Spanned`, which says nothing about the parts of the bounds: `nbu` and `nbx`
  may add up to anything, or be missing.

  Setting a part of the bounds goes by `nbu` and `nbx` alone. The parts of a stage stay among
  the rows of `lb` and `ub` exactly when together they are no more than `nb`
  (`Dims.lower_parts_within`, `Dims.upper_parts_within`); otherwise they reach into the rows of
  the general constraints, of the other side or of the slacks, and are stored there as long as
  the vector has the rows (`Laid.setVector_run`). The upper bounds on states start behind those
  on inputs as a word counts, so among a great many of these they may land on any row in front
  (`Dims.wordSlotAt`). A record of two bounds on states that counts one bound is such a case
  (`bind_admits_overlong`).
-/

import HorizonQp.Proofs.Layout.Breach
import HorizonQp.Proofs.Qp.Creation

namespace HorizonQp

open Word (limit wrap_of_lt)

/-! ## The parts of the bounds -/

/-- Every entry of the slot is one of the other. -/
def VecSlot.Within (s t : VecSlot) : Prop :=
  s.block = t.block ∧ ∀ k, s.offset ≤ k → k < s.offset + s.len → t.offset ≤ k ∧ k < t.offset + t.len

theorem VecSlot.within_iff {s t : VecSlot} (hb : s.block = t.block) :
    s.Within t ↔ s.len = 0 ∨ (t.offset ≤ s.offset ∧ s.offset + s.len ≤ t.offset + t.len) := by
  constructor
  · intro h
    by_cases hlen : s.len = 0
    · exact Or.inl hlen
    · have hfirst := h.2 s.offset (Nat.le_refl _) (by omega)
      have hlast := h.2 (s.offset + s.len - 1) (by omega) (by omega)
      omega
  · intro h
    refine ⟨hb, fun k h₁ h₂ => ?_⟩
    omega

namespace Dims

variable {d : Dims} {i : Nat}

/-- A list of counts that are packed has an entry too many. -/
def Overfull (d : Dims) : Prop := d.N + 1 < d.nb.length ∨ d.N + 1 < d.ns.length

theorem spanned_iff_of_counted (h : ∀ i ≤ d.N, d.Counted i) : d.Spanned ↔ ¬d.Overfull := by
  have hlast := h d.N (Nat.le_refl _)
  have hnb := hlast.nb
  have hns := hlast.ns
  constructor
  · intro s hover
    have hnb' := s.nb
    have hns' := s.ns
    unfold Overfull at hover
    omega
  · intro hover
    unfold Overfull at hover
    exact ⟨hlast.nx, hlast.nu, by omega, hlast.ng, by omega⟩

/-- A stage without an entry for the parts has no slots at all, those of other fields included. -/
theorem Spanned.vecSlot_ends (s : d.Spanned) (hw : d.FitsWords) {f : Field} (hk : f.kind = .vector)
    (hi : i < f.count d.N) :
    if i < d.nbu.length ∧ i < d.nbx.length then d.vecSlot f i = .ok (d.wordSlotAt i f)
    else d.vecSlot f i = .error .breach := by
  split
  case isTrue h => exact (s.vecSlot_eq_ok hw).mpr ⟨hk, hi, h.1, h.2, rfl⟩
  case isFalse h =>
    have hslot : d.vecSlot f i = .require (d.vecSlot? f i) := by
      rw [vecSlot, Field.expectKind_eq_ok.mpr hk, checkFieldStage_eq_ok.mpr hi]
      rfl
    rw [hslot, Attempt.require_eq_breach]
    cases hsome : d.vecSlot? f i with
    | none => rfl
    | some slot =>
      rw [hsome] at hslot
      rcases (s.vecSlot_eq_ok hw).mp hslot with ⟨-, -, hu, hx, -⟩
      exact absurd ⟨hu, hx⟩ h

/-- A part is a run of the rows. -/
theorem part_slot {f : Field} (hf : f ∈ [Field.lbu, .lbx, .ubu, .ubx]) (N : Nat) :
    f.kind = .vector ∧ f.count N = N + 1 ∧ (d.wordSlotAt i f).block = .d ∧ (d.wordSlotAt i f).augmented = none := by
  simp only [List.mem_cons, List.not_mem_nil, or_false] at hf
  rcases hf with rfl | rfl | rfl | rfl <;> exact ⟨rfl, rfl, rfl, rfl⟩

/-- The parts of the lower bounds keep to the rows of the lower bounds exactly when they are no
    more than these together. -/
theorem lower_parts_within (d : Dims) (i : Nat) :
    ((d.wordSlotAt i .lbu).Within (d.wordSlotAt i .lb) ∧ (d.wordSlotAt i .lbx).Within (d.wordSlotAt i .lb)) ↔
      d.nbuAt i + d.nbxAt i ≤ d.nbAt i := by
  have hu := VecSlot.within_iff (s := d.wordSlotAt i .lbu) (t := d.wordSlotAt i .lb) rfl
  have hx := VecSlot.within_iff (s := d.wordSlotAt i .lbx) (t := d.wordSlotAt i .lb) rfl
  rw [hu, hx]
  simp only [wordSlotAt, vecSlotAt]
  omega

/-- The parts of the upper bounds do so as well: where the second starts past a word, the first
    is already too long. -/
theorem upper_parts_within (hrows : d.ncAt i < limit) :
    ((d.wordSlotAt i .ubu).Within (d.wordSlotAt i .ub) ∧ (d.wordSlotAt i .ubx).Within (d.wordSlotAt i .ub)) ↔
      d.nbuAt i + d.nbxAt i ≤ d.nbAt i := by
  have hu := VecSlot.within_iff (s := d.wordSlotAt i .ubu) (t := d.wordSlotAt i .ub) rfl
  have hx := VecSlot.within_iff (s := d.wordSlotAt i .ubx) (t := d.wordSlotAt i .ub) rfl
  rw [hu, hx]
  simp only [wordSlotAt, vecSlotAt]
  simp only [ncAt] at hrows
  by_cases hinputs : d.nbuAt i ≤ d.nbAt i
  · rw [wrap_of_lt (by omega)]
    omega
  · omega

end Dims

namespace Qp

variable {α : Type} [Stored α]

/-! ## Storing a part -/

/-- Storing a run of a vector goes through exactly when the vector has the run, whichever rows
    they are, and replaces those. -/
theorem Laid.setVector_run [Neg α] [Zero α] [LawfulStored α] {q : Qp α} (h : q.Laid) {f : Field} {i : Nat} {data : List α}
    {s : VecSlot} (hs : q.dims.vecSlot f i = .ok s) (ha : s.augmented = none) (hi : i < s.block.region.count q.dims.N)
    (hlen : s.len = data.length) :
    if s.offset + s.len ≤ s.block.len q.dims i then
      ∃ q', q.setVector f i data = .ok q' ∧ q'.dims = q.dims ∧
        q'.numbers s.block.region i = (q.numbers s.block.region i).take s.offset ++ s.held data ++
          (q.numbers s.block.region i).drop (s.offset + s.len)
    else q.setVector f i data = .error .breach := by
  have hx := h.length_numbers (VecBlock.isFloat_region _) hi
  rw [VecBlock.entries_region] at hx
  have hvec : q.vector? s.block i = some (q.numbers s.block.region i) := (h.vector?_eq _ i).trans (if_pos hi)
  split
  case isTrue hin =>
    have hstore : s.store? data (q.numbers s.block.region i) = some _ :=
      VecSlot.store?_eq_some.mpr ⟨⟨by rw [hx]; exact hin, hlen⟩, rfl⟩
    have hly := (VecSlot.length_store? hstore).trans hx
    have hentries := hly.trans (VecBlock.entries_region ..).symm
    rcases h.exists_wrote hi (length_encoded (VecBlock.isFloat_region _) hentries) with ⟨q', w⟩
    refine ⟨q', setVector_eq_ok.mpr ⟨s, hs, hlen, _, _, q', hvec, hstore, h.writeVector?_eq_some.mpr ⟨hly, w⟩, ?_⟩,
      w.dims, numbers_written w hentries⟩
    rw [ha]
    rfl
  case isFalse hout =>
    have hstore : s.store? data (q.numbers s.block.region i) = none := if_neg fun hfits => hout (hx ▸ hfits.1)
    rw [Qp.setVector, hs, Attempt.ok_bind, checkLength_eq_ok.mpr hlen, hvec]
    show (Attempt.require (s.store? data (q.numbers s.block.region i)) >>= _) = _
    rw [hstore]
    rfl

/-! ## Binding any record -/

variable {d : Dims}

/-- A record with an entry too many is planned, and its headers do not fill their table. -/
theorem bind_of_overfull {l : Layout} (hl : Layout.plan (Stored.width α) d = .ok l) (hover : d.Overfull) {b : Block}
    (hsize : l.memsize ≤ b.size) (hroom : b.base + l.used ≤ b.size) : bind (α := α) d b = .error .breach := by
  have hw : l.writeHeaders? b = none := by
    cases hw : l.writeHeaders? b with
    | none => rfl
    | some b₁ =>
      have spans := Layout.spanned_of_plan hl (Layout.idx_fill_of_writeHeaders? hw)
      exact absurd hover (Dims.spanned_iff_of_counted (Layout.counted_of_plan hl) |>.mp spans)
  rw [bind, hl, Attempt.ok_bind, if_neg (Nat.not_lt.mpr hsize), if_neg (Nat.not_lt.mpr hroom), hw]
  rfl

theorem bind_of_not_overfull {l : Layout} (hl : Layout.plan (Stored.width α) d = .ok l) (hover : ¬d.Overfull) {b : Block}
    (hsize : l.memsize ≤ b.size) (hroom : b.base + l.used ≤ b.size) :
    ∃ q : Qp α, bind d b = .ok q ∧ q.dims = d ∧ q.layout = l :=
  bind_accepts ((Dims.spanned_iff_of_counted (Layout.counted_of_plan hl)).mpr hover) hl hsize hroom

theorem bind_answers_iff {b : Block} : (∃ q : Qp α, bind d b = .ok q) ↔
    d.Spanned ∧ ∃ l, Layout.plan (Stored.width α) d = .ok l ∧ l.memsize ≤ b.size ∧ b.base + l.used ≤ b.size := by
  constructor
  · intro h
    rcases h with ⟨q, hq⟩
    have spans := (laid_of_bind hq).spans
    rcases bind_eq_ok.mp hq with ⟨rfl, hl, hsize, hroom, -⟩
    exact ⟨spans, q.layout, hl, hsize, hroom⟩
  · intro h
    rcases h with ⟨spans, l, hl, hsize, hroom⟩
    rcases bind_accepts (α := α) spans hl hsize hroom with ⟨q, hq, -⟩
    exact ⟨q, hq⟩

/-- A block without the room is refused with an error. -/
theorem room_of_bind_breach {l : Layout} (hl : Layout.plan (Stored.width α) d = .ok l) {b : Block}
    (h : bind (α := α) d b = .error .breach) : l.memsize ≤ b.size ∧ b.base + l.used ≤ b.size := by
  rw [bind, hl, Attempt.ok_bind] at h
  split at h
  · cases h
  split at h
  · cases h
  exact ⟨Nat.not_lt.mp ‹_›, Nat.not_lt.mp ‹_›⟩

theorem bind_eq_breach {b : Block} : bind (α := α) d b = .error .breach ↔
    d.Uncountable ∨ ∃ l, Layout.plan (Stored.width α) d = .ok l ∧ l.memsize ≤ b.size ∧ b.base + l.used ≤ b.size ∧
      d.Overfull := by
  constructor
  · intro h
    have hsteps := h
    rw [bind, Attempt.bind_eq_error, Layout.plan_eq_breach] at hsteps
    rcases hsteps with huncountable | ⟨l, hl, -⟩
    · exact Or.inl huncountable
    · have hroom := room_of_bind_breach hl h
      refine Or.inr ⟨l, hl, hroom.1, hroom.2, ?_⟩
      by_cases hover : d.Overfull
      · exact hover
      · rcases bind_of_not_overfull (α := α) hl hover hroom.1 hroom.2 with ⟨q, hq, -⟩
        cases hq.symm.trans h
  · intro h
    rcases h with huncountable | ⟨l, hl, hsize, hroom, hover⟩
    · rw [bind, Layout.plan_eq_breach.mpr huncountable]
      rfl
    · exact bind_of_overfull hl hover hsize hroom

/-- A new block has the room for its layout. -/
theorem filled_room {l : Layout} (hl : Layout.plan (Stored.width α) d = .ok l) :
    l.memsize ≤ (Block.filled l.memsize 0).size ∧
      (Block.filled l.memsize 0).base + l.used ≤ (Block.filled l.memsize 0).size := by
  have hsize : (Block.filled l.memsize 0).size = l.memsize := Array.size_replicate
  have hbase : (Block.filled l.memsize 0).base = 0 := rfl
  have hmem := Layout.memsize_of_plan hl
  omega

theorem new_answers_iff : (∃ q : Qp α, new d = .ok q) ↔
    d.Spanned ∧ ∃ l, Layout.plan (Stored.width α) d = .ok l ∧ l.memsize ≤ Word.maxBytes := by
  simp only [new, Attempt.bind_eq_ok, Attempt.widen_eq_ok]
  constructor
  · intro h
    rcases h with ⟨q, l, hl, hq⟩
    split at hq
    case isTrue hmax =>
      rw [Attempt.widen_eq_ok] at hq
      exact ⟨(bind_answers_iff.mp ⟨q, hq⟩).1, l, hl, hmax⟩
    case isFalse => exact absurd hq Attempt.breach_ne_ok
  · intro h
    rcases h with ⟨spans, l, hl, hmax⟩
    rcases bind_answers_iff.mpr ⟨spans, l, hl, filled_room hl⟩ with ⟨q, hq⟩
    refine ⟨q, l, hl, ?_⟩
    rw [if_pos hmax, Attempt.widen_eq_ok]
    exact hq

theorem new_eq_breach : new (α := α) d = .error .breach ↔
    d.Uncountable ∨ ∃ l, Layout.plan (Stored.width α) d = .ok l ∧ (Word.maxBytes < l.memsize ∨ d.Overfull) := by
  rw [new, Attempt.bind_eq_error, Attempt.widen_eq_breach, Layout.plan_eq_breach]
  refine or_congr_right (exists_congr fun l => ?_)
  rw [Attempt.widen_eq_ok]
  refine and_congr_right fun hl => ?_
  by_cases hmax : l.memsize ≤ Word.maxBytes
  · rw [if_pos hmax, Attempt.widen_eq_breach, or_iff_right (Nat.not_lt.mpr hmax)]
    have hcounted : ¬d.Uncountable := fun h => by cases hl.symm.trans (Layout.plan_eq_breach.mpr h)
    have hroom := filled_room hl
    rw [bind_eq_breach, or_iff_right hcounted]
    constructor
    · intro h
      rcases h with ⟨_, -, -, -, hover⟩
      exact hover
    · intro hover
      exact ⟨l, hl, hroom.1, hroom.2, hover⟩
  · rw [if_neg hmax]
    exact ⟨fun _ => Or.inl (Nat.lt_of_not_le hmax), fun _ => rfl⟩

/-! ## How a record is received -/

section Received

variable [Zero α] [Neg α] [LawfulStored α]

/-- What becomes of a record of dimensions, whatever it says. -/
structure Admission (α : Type) [Stored α] [Zero α] [Neg α] [LawfulStored α] (d : Dims) : Prop where
  planBreaks : Layout.plan (Stored.width α) d = .error .breach ↔ d.Uncountable
  requiredBreaks : Layout.required? (Stored.width α) d = none ↔ d.Uncountable
  bindBreaks : ∀ b, bind (α := α) d b = .error .breach ↔ d.Uncountable ∨
    ∃ l, Layout.plan (Stored.width α) d = .ok l ∧ l.memsize ≤ b.size ∧ b.base + l.used ≤ b.size ∧ d.Overfull
  newBreaks : new (α := α) d = .error .breach ↔ d.Uncountable ∨
    ∃ l, Layout.plan (Stored.width α) d = .ok l ∧ (Word.maxBytes < l.memsize ∨ d.Overfull)
  /-- What is bound has the counts of every stage. -/
  binds : ∀ b, (∃ q : Qp α, bind d b = .ok q) ↔
    d.Spanned ∧ ∃ l, Layout.plan (Stored.width α) d = .ok l ∧ l.memsize ≤ b.size ∧ b.base + l.used ≤ b.size
  creates : (∃ q : Qp α, new d = .ok q) ↔
    d.Spanned ∧ ∃ l, Layout.plan (Stored.width α) d = .ok l ∧ l.memsize ≤ Word.maxBytes
  /-- A bound problem has the slots of a stage when the two parts have an entry for it, and
      breaks otherwise. -/
  slots : ∀ b (q : Qp α), bind d b = .ok q → ∀ f i, f.kind = .vector → i < f.count d.N →
    if i < d.nbu.length ∧ i < d.nbx.length then q.dims.vecSlot f i = .ok (d.wordSlotAt i f)
    else q.dims.vecSlot f i = .error .breach
  /-- The two parts of a side keep to its rows exactly when there are no more of them. -/
  parts : ∀ b (q : Qp α), bind d b = .ok q → ∀ i ≤ d.N,
    (((d.wordSlotAt i .lbu).Within (d.wordSlotAt i .lb) ∧ (d.wordSlotAt i .lbx).Within (d.wordSlotAt i .lb)) ↔
      d.nbuAt i + d.nbxAt i ≤ d.nbAt i) ∧
    (((d.wordSlotAt i .ubu).Within (d.wordSlotAt i .ub) ∧ (d.wordSlotAt i .ubx).Within (d.wordSlotAt i .ub)) ↔
      d.nbuAt i + d.nbxAt i ≤ d.nbAt i)
  /-- A part is stored wherever it lies among the rows of the stage, its own or not. -/
  stores : ∀ b (q : Qp α), bind d b = .ok q → ∀ f ∈ [Field.lbu, .lbx, .ubu, .ubx], ∀ i ≤ d.N, i < d.nbu.length →
    i < d.nbx.length → ∀ data : List α, data.length = (d.wordSlotAt i f).len →
      if (d.wordSlotAt i f).offset + (d.wordSlotAt i f).len ≤ d.ncAt i then
        ∃ q', q.setVector f i data = .ok q' ∧ q'.dims = d ∧
          q'.numbers .d i = (q.numbers .d i).take (d.wordSlotAt i f).offset ++ (d.wordSlotAt i f).held data ++
            (q.numbers .d i).drop ((d.wordSlotAt i f).offset + (d.wordSlotAt i f).len)
      else q.setVector f i data = .error .breach

/-- A part of a bound problem's bounds goes into the rows that `nbu` and `nbx` say. -/
theorem setVector_part {b : Block} {q : Qp α} (hq : bind d b = .ok q) {f : Field} (hf : f ∈ [Field.lbu, .lbx, .ubu, .ubx])
    {i : Nat} (hi : i ≤ d.N) (hu : i < d.nbu.length) (hx : i < d.nbx.length) {data : List α}
    (hlen : data.length = (d.wordSlotAt i f).len) :
    if (d.wordSlotAt i f).offset + (d.wordSlotAt i f).len ≤ d.ncAt i then
      ∃ q', q.setVector f i data = .ok q' ∧ q'.dims = d ∧
        q'.numbers .d i = (q.numbers .d i).take (d.wordSlotAt i f).offset ++ (d.wordSlotAt i f).held data ++
          (q.numbers .d i).drop ((d.wordSlotAt i f).offset + (d.wordSlotAt i f).len)
    else q.setVector f i data = .error .breach := by
  have h := laid_of_bind hq
  obtain rfl := (bind_eq_ok.mp hq).1
  have hpart := Dims.part_slot (d := q.dims) (i := i) hf q.dims.N
  have hcount : i < f.count q.dims.N := by
    rw [hpart.2.1]
    omega
  have hslot := (h.spans.vecSlot_eq_ok h.layout.words).mpr ⟨hpart.1, hcount, hu, hx, rfl⟩
  have hstage : i < (q.dims.wordSlotAt i f).block.region.count q.dims.N := by
    rw [hpart.2.2.1]
    exact Nat.lt_succ_of_le hi
  have hrun := h.setVector_run hslot hpart.2.2.2 hstage hlen.symm
  rw [hpart.2.2.1] at hrun
  exact hrun

/-- Whatever a record of dimensions says, planning, binding and creating a problem break only
    for entries that are missing or too many, a horizon or a size that no allocation can hold.
    What is bound has the counts of its stages, and a part of its bounds is stored wherever
    `nbu` and `nbx` put it. -/
theorem admission (d : Dims) : Admission α d where
  planBreaks := Layout.plan_eq_breach
  requiredBreaks := Layout.required?_eq_none
  bindBreaks := fun b => bind_eq_breach
  newBreaks := new_eq_breach
  binds := fun b => bind_answers_iff
  creates := new_answers_iff
  slots := by
    intro b q hq f i hk hi
    obtain rfl := (bind_eq_ok.mp hq).1
    exact (laid_of_bind hq).spans.vecSlot_ends (laid_of_bind hq).layout.words hk hi
  parts := by
    intro b q hq i hi
    obtain rfl := (bind_eq_ok.mp hq).1
    exact ⟨q.dims.lower_parts_within i, Dims.upper_parts_within ((laid_of_bind hq).layout.words i hi).2.2⟩
  stores := by
    intro b q hq f hf i hi hu hx data hlen
    exact setVector_part hq hf hi hu hx hlen

end Received

/-! ## A bound too many -/

/-- Two bounds on states are counted as one, beside one general constraint. -/
def overlong : Dims := ⟨0, [1], [0], [1], [0], [2], [1], [0]⟩

/-- One step, and only one stage with counts. -/
def cutShort : Dims := ⟨1, [1], [0], [0], [0], [0], [0], [0]⟩

theorem overlong_fits : overlong.Spanned ∧ ∃ l, Layout.plan (Stored.width Binary.Double) overlong = .ok l ∧
    l.memsize ≤ (Block.filled 640 0).size ∧ (Block.filled 640 0).base + l.used ≤ (Block.filled 640 0).size := by
  have hl : Layout.plan (Stored.width Binary.Double) overlong = .ok (Layout.planned 8 overlong) := rfl
  have hmem : (Layout.planned 8 overlong).memsize = 640 := by decide
  have hroom := filled_room hl
  rw [hmem] at hroom
  exact ⟨⟨by decide, by decide, rfl, by decide, rfl⟩, _, hl, by rw [hmem]; exact hroom.1, hroom.2⟩

/-- One record is bound, with bounds on states that reach past `lb`, and setting them goes
    through. The other is cut short and breaks the plan. -/
theorem admission_overlong : Layout.plan 8 cutShort = .error .breach ∧ ∃ q : Qp Binary.Double,
    bind overlong (.filled 640 0) = .ok q ∧ ¬(overlong.wordSlotAt 0 .lbx).Within (overlong.wordSlotAt 0 .lb) ∧
      ∃ q', q.setVector .lbx 0 [0, 1] = .ok q' := by
  have short := admission (α := Binary.Double) cutShort
  have long := admission (α := Binary.Double) overlong
  have hlacks : cutShort.Uncountable := Or.inr ⟨1, Nat.le_refl _, Or.inl (Nat.le_refl _), fun j hj => by
    cases Nat.lt_one_iff.mp hj
    exact ⟨by decide, by decide, by decide, by decide, by decide, by decide, by decide, by decide⟩⟩
  rcases (long.binds (.filled 640 0)).mpr overlong_fits with ⟨q, hq⟩
  have hset := long.stores _ q hq .lbx (by decide) 0 (by decide) (by decide) (by decide) [0, 1] rfl
  rw [if_pos (by decide)] at hset
  rcases hset with ⟨q', hq', -⟩
  refine ⟨short.planBreaks.mpr hlacks, q, hq, fun hx => ?_, q', hq'⟩
  have hpast : overlong.nbuAt 0 + overlong.nbxAt 0 ≤ overlong.nbAt 0 :=
    (long.parts _ q hq 0 (Nat.le_refl _)).1.mp ⟨⟨rfl, fun k h₁ h₂ => absurd h₂ (Nat.not_lt.mpr h₁)⟩, hx⟩
  exact absurd hpast (by decide)

/-- The second of the bounds on states is stored as the lower general constraint. -/
theorem bind_admits_overlong : ¬overlong.Consistent ∧ ∃ q : Qp Binary.Double, bind overlong (.filled 640 0) = .ok q ∧
    ∀ x y, ∃ q', q.setVector .lbx 0 [x, y] = .ok q' ∧ q'.getVector .lg 0 1 = .ok [y] := by
  rcases bind_answers_iff.mpr overlong_fits with ⟨q, hq⟩
  refine ⟨by decide, q, hq, fun x y => ?_⟩
  have hset := setVector_part hq (f := .lbx) (i := 0) (by decide) (by decide) (by decide) (by decide)
    (show [x, y].length = 2 from rfl)
  rw [if_pos (by decide)] at hset
  rcases hset with ⟨q', hq', hd, hrows⟩
  have h' := ((laid_of_bind hq).setVector hq').laid
  have hvec : q'.vector? .d 0 = some (x :: y :: (q.numbers .d 0).drop 2) := by
    rw [h'.vector?_eq, hd, if_pos (by decide)]
    exact congrArg some hrows
  refine ⟨q', hq', ?_⟩
  rw [getVector, hd]
  show (Attempt.require (q'.vector? .d 0) >>= _) = _
  rw [hvec, Attempt.require_some, Attempt.ok_bind, VecSlot.load?_eq (by simp)]
  rfl

end Qp

end HorizonQp
