/-
  HorizonQp.Proofs.Qp.Fields — the store law of the fields.

  What is set is what is got: a field that was set reads as the data it was set to, a
  matrix in either order, an upper bound with its own sign. What is not set stays: no byte
  of the block changes but in the entries of the field and in the last rows that repeat
  `b`, `r` and `q`, so every other field of every stage reads as before, except that the
  bounds and their parts on inputs and on states are one and the same (`Frames`). At all
  times the bounds of a stage are those on inputs, then those on states (`JoinsBounds`).

  `field_store_law` collects this for every reachable problem. The effect of a single call
  is `Bound.setMatrix_changed`, `Bound.setVector_changed` and `Bound.setIndex_changed`.
-/

import HorizonQp.Proofs.Qp.Frame
import HorizonQp.Proofs.Qp.Reachable

namespace HorizonQp

open Linear (Matrix Order)

namespace Qp

variable {α : Type} [Stored α]

/-- An entry that setting field `f` writes: one of the field, or one of a last row that repeats it. -/
def Written (d : Dims) (i : Nat) (f : Field) (kind : RegionKind) (k : Nat) : Prop :=
  d.Owns i f kind k ∨ d.Mirrors i f kind k

/-! ## What setting a field guarantees -/

/-- Setting field `f` of stage `i` left everything else alone. -/
structure Frames [Zero α] [Neg α] (q q' : Qp α) (f : Field) (i : Nat) : Prop where
  dims : q'.dims = q.dims
  layout : q'.layout = q.layout
  bytes : ∀ p, (∀ kind k, Written q.dims i f kind k → ¬ q.EntryByte kind i k p) →
    q'.block.bytes[p]? = q.block.bytes[p]?
  reads : ∀ g j, (j = i → g ≠ f ∧ f.overlaps g = false) → ∀ len,
    (∀ order, q'.getMatrix g j len order = q.getMatrix g j len order) ∧
      q'.getVector g j len = q.getVector g j len ∧ q'.getIndex g j len = q.getIndex g j len ∧
      ∀ name, Field.ofName? name = some g → q'.get name j len = q.get name j len

/-- Field `f` of stage `i` is `data` in `order`, and reads so in either order. -/
structure ReadsMatrix [Zero α] (q : Qp α) (f : Field) (i : Nat) (order : Order) (data : List α) : Prop where
  same : q.getMatrix f i data.length order = .ok data
  reordered : ∃ m n, q.dims.matrixShape f i = .ok (m, n) ∧ ∀ order', ∃ xs,
    q.getMatrix f i data.length order' = .ok xs ∧ xs.length = data.length ∧
      ∀ r < m, ∀ c < n, xs[order'.index m n r c]? = data[order.index m n r c]?

/-- Field `f` of stage `i` reads as `data`, is held negated if it is an upper bound, and is
    repeated in the last row of its augmented matrix. -/
structure ReadsVector [Neg α] (q : Qp α) (f : Field) (i : Nat) (data : List α) : Prop where
  same : q.getVector f i data.length = .ok data
  held : ∃ s x, q.dims.vecSlot f i = .ok s ∧ q.vector? s.block i = some x ∧
    (x.drop s.offset).take s.len = if s.negated then data.map (- ·) else data
  repeated : ∀ s block col0, q.dims.vecSlot f i = .ok s → s.augmented = some (block, col0) →
    ∃ M, q.matrix? block i = some M ∧ ∀ k < data.length, M.entry? (M.rows - 1) (col0 + k) = data[k]?

/-- The bounds of stage `i` are those on inputs, then those on states. -/
structure JoinsBounds [Neg α] (q : Qp α) (i : Nat) : Prop where
  lower : ∃ u x, q.getVector .lbu i (q.dims.nbuAt i) = .ok u ∧ q.getVector .lbx i (q.dims.nbxAt i) = .ok x ∧
    q.getVector .lb i (q.dims.nbAt i) = .ok (u ++ x)
  upper : ∃ u x, q.getVector .ubu i (q.dims.nbuAt i) = .ok u ∧ q.getVector .ubx i (q.dims.nbxAt i) = .ok x ∧
    q.getVector .ub i (q.dims.nbAt i) = .ok (u ++ x)

/-- Entries of two fields that do not overlap are apart, and no field has entries of a last row. -/
theorem written_apart {d : Dims} (hd : d.Consistent) {i : Nat} (hi : i ≤ d.N) {f g : Field} (hne : g ≠ f)
    (ho : f.overlaps g = false) {kind : RegionKind} {k : Nat} (hg : d.Owns i g kind k) : ¬ Written d i f kind k := by
  rintro (hf | hf)
  · exact Dims.owns_apart hd hi hne.symm ho hf hg
  · exact Dims.mirrors_apart hf hg

/-- Getting by name is getting the field of that name. -/
theorem get_named [Zero α] [Neg α] {q : Qp α} {name : String} {f : Field} (hf : Field.ofName? name = some f) (i len : Nat) :
    q.get name i len = match f.kind with
      | .matrix => q.getMatrix f i len .columnMajor
      | .vector => q.getVector f i len
      | .index => .fail (.fieldKind f .floatingPoint) := by
  rw [Qp.get, fieldNamed, hf]
  rfl

theorem ChangedOnly.frames [Zero α] [Neg α] {q q' : Qp α} {f : Field} {i : Nat} (h : q.Bound) (hi : i ≤ q.dims.N)
    (c : q.ChangedOnly q' i (Written q.dims i f)) : q.Frames q' f i where
  dims := c.dims
  layout := c.layout
  bytes := c.bytes
  reads g j hg len := by
    have hno : j = i → ∀ kind k, q.dims.Owns i g kind k → ¬ Written q.dims i f kind k := fun hji _ _ =>
      written_apart h.dims hi (hg hji).1 (hg hji).2
    refine ⟨c.getMatrix h hno len, c.getVector h hno len, c.getIndex h hno len, fun name hname => ?_⟩
    rw [get_named hname, get_named hname, c.getMatrix h hno len, c.getVector h hno len]

/-! ## Reading a bound problem -/

namespace Bound

variable {q : Qp α} (h : q.Bound) {f : Field} {i : Nat}
include h

theorem getMatrix_eq [Zero α] (hk : f.kind = .matrix) (hi : i < f.count q.dims.N) (order : Order) {len : Nat}
    (hlen : (q.dims.matSlotAt i f).rows * (q.dims.matSlotAt i f).cols = len) :
    q.getMatrix f i len order =
      .ok ((q.dims.matSlotAt i f).load order (q.matrixAt (q.dims.matSlotAt i f).block i)) := by
  have hj := hi
  rw [← Dims.matSlotAt_count (d := q.dims) (i := i) hk] at hj
  rw [Qp.getMatrix, (Dims.matSlot_eq_ok h.addressable).mpr ⟨hk, hi, rfl⟩, Attempt.ok_bind, checkLength_eq_ok.mpr hlen,
    h.matrix?_eq, if_pos hj]
  exact congrArg Attempt.require (MatSlot.load?_eq (Dims.matSlotAt_fits hk))

theorem getVector_eq [Neg α] (hk : f.kind = .vector) (hi : i < f.count q.dims.N) {len : Nat}
    (hlen : (q.dims.vecSlotAt i f).len = len) :
    q.getVector f i len = .require ((q.dims.vecSlotAt i f).load? (q.numbers (q.dims.vecSlotAt i f).block.region i)) := by
  have hj := hi
  rw [← Dims.vecSlotAt_count (d := q.dims) (i := i) hk] at hj
  rw [Qp.getVector, (Dims.vecSlot_eq_ok h.addressable).mpr ⟨hk, hi, rfl⟩, Attempt.ok_bind, checkLength_eq_ok.mpr hlen,
    h.vector?_eq, if_pos hj]
  rfl

theorem getIndex_eq (hk : f.kind = .index) (hi : i < f.count q.dims.N) :
    q.getIndex f i (f.idxBlock.len q.dims i) = .ok (q.words f.idxBlock.region i) := by
  have hj := Field.idxBlock_stage hk hi
  have hl := h.length_words f.idxBlock.isFloat_region hj
  rw [f.idxBlock.entries_region] at hl
  rw [Qp.getIndex, Field.expectKind_eq_ok.mpr hk, Dims.checkFieldStage_eq_ok.mpr hi,
    Dims.idxSlot?_eq h.addressable hk (Dims.stage_le hi)]
  show (Attempt.require (q.indices? f.idxBlock i) >>= _) = _
  rw [h.indices?_eq, if_pos hj, Attempt.require_some, Attempt.ok_bind, checkLength_eq_ok.mpr hl]
  rfl

/-- The entries of a vector field, with the sign they are meant with. -/
theorem getVector_run [Neg α] (hk : f.kind = .vector) (hi : i < f.count q.dims.N) {len : Nat}
    (hlen : (q.dims.vecSlotAt i f).len = len) :
    q.getVector f i len = .ok ((q.dims.vecSlotAt i f).held
      (((q.numbers (q.dims.vecSlotAt i f).block.region i).drop (q.dims.vecSlotAt i f).offset).take
        (q.dims.vecSlotAt i f).len)) := by
  have hj := hi
  rw [← Dims.vecSlotAt_count (d := q.dims) (i := i) hk] at hj
  have hl := h.length_numbers (VecBlock.isFloat_region _) hj
  rw [VecBlock.entries_region] at hl
  rw [h.getVector_eq hk hi hlen, VecSlot.load?_eq (by rw [hl]; exact Dims.vecSlotAt_inside h.dims (Dims.stage_le hi) hk),
    Attempt.require_some]

theorem joinsBounds [Neg α] (hi : i ≤ q.dims.N) : q.JoinsBounds i := by
  have hb := ((Dims.consistent_iff.mp h.dims).2 i hi).1
  have run : ∀ f : Field, f.kind = .vector → f.isDynamics = false → ∀ {len}, (q.dims.vecSlotAt i f).len = len → _ :=
    fun f hk hf {_} => h.getVector_run (f := f) hk (by rw [Field.count, hf]; exact Nat.lt_succ_of_le hi)
  refine ⟨⟨_, _, run .lbu rfl rfl rfl, run .lbx rfl rfl rfl, ?_⟩, ⟨_, _, run .ubu rfl rfl rfl, run .ubx rfl rfl rfl, ?_⟩⟩
  · refine (run .lb rfl rfl rfl).trans (congrArg Except.ok ?_)
    simp [Dims.vecSlotAt, VecSlot.held, hb, List.take_add]
  · refine (run .ub rfl rfl rfl).trans (congrArg Except.ok ?_)
    simp [Dims.vecSlotAt, VecSlot.held, hb, List.take_add]

end Bound

/-! ## What setting a field does -/

theorem numbers_written [Zero α] [LawfulStored α] {q q' : Qp α} {kind : RegionKind} {i : Nat} {ys : List α}
    (w : q.Wrote q' kind i (ys.flatMap Stored.encode)) (hlen : ys.length = kind.entries q.dims i) :
    q'.numbers kind i = ys := by
  rw [w.numbers_self rfl hlen]
  exact (List.map_congr_left fun x _ => LawfulStored.decode_encode x).trans (List.map_id' ys)

/-- The matrix after a write over it. -/
theorem matrixAt_written [Zero α] [LawfulStored α] {q q' : Qp α} {block : MatBlock} {i : Nat} {ys : List α}
    (w : q.Wrote q' block.region i (ys.flatMap Stored.encode))
    (hlen : ys.length = (block.shape q.dims i).1 * (block.shape q.dims i).2) :
    q'.matrixAt block i = (q.matrixAt block i).withData ys := by
  rw [matrixAt, numbers_written w (by rw [hlen, block.entries_region]), w.dims]
  rfl

namespace Bound

variable {q q' : Qp α} (h : q.Bound) {f : Field} {i : Nat}
include h

section Matrices

variable [Zero α] [LawfulStored α] {data : List α} {order : Order}

/-- The entries of a slot are replaced, and the array is read as it was written. -/
theorem store_changed {s : MatSlot} (touched : RegionKind → Nat → Prop)
    (ht : ∀ k, s.Covers (k % (s.block.shape q.dims i).1) (k / (s.block.shape q.dims i).1) → touched s.block.region k)
    (hw : q.writeMatrix? s.block i (s.store order data (q.matrixAt s.block i)) = some q') :
    q.ChangedOnly q' i touched ∧ i < s.block.region.count q.dims.N ∧
      q'.matrixAt s.block i = (q.matrixAt s.block i).withData (s.store order data (q.matrixAt s.block i)) := by
  obtain ⟨hlen, w⟩ := h.writeMatrix?_eq_some.mp hw
  refine ⟨w.changedOnly h s.block.isFloat_region (by rw [hlen, s.block.entries_region]) fun k _ hk => ?_, w.stage,
    matrixAt_written w hlen⟩
  exact MatSlot.getElem?_store_apart fun hc => hk (ht k hc)

theorem setMatrix_changed (hs : q.setMatrix f i data order = .ok q') :
    q.ChangedOnly q' i (Written q.dims i f) ∧ f.kind = .matrix ∧ i < f.count q.dims.N ∧
      (q.dims.matSlotAt i f).rows * (q.dims.matSlotAt i f).cols = data.length ∧
      q'.matrixAt (q.dims.matSlotAt i f).block i =
        (q.matrixAt (q.dims.matSlotAt i f).block i).withData
          ((q.dims.matSlotAt i f).store order data (q.matrixAt (q.dims.matSlotAt i f).block i)) := by
  obtain ⟨s, hslot, hlen, M, hM, -, hw⟩ := setMatrix_eq_ok.mp hs
  obtain ⟨hk, hi, rfl⟩ := (Dims.matSlot_eq_ok h.addressable).mp hslot
  rw [h.matrix?_eq, if_pos (by rwa [Dims.matSlotAt_count hk])] at hM
  cases hM
  obtain ⟨hc, -, hA⟩ := h.store_changed (Written q.dims i f)
    (fun k hk' => Or.inl ((Dims.owns_matrix hk).mpr ⟨rfl, hk'⟩)) hw
  exact ⟨hc, hk, hi, hlen, hA⟩

theorem setMatrix_reads (hs : q.setMatrix f i data order = .ok q') : q'.ReadsMatrix f i order data := by
  obtain ⟨hc, hk, hi, hlen, hA⟩ := h.setMatrix_changed hs
  have hd := hc.dims
  have hi' : i < f.count q'.dims.N := by rwa [hd]
  have hM := h.matrixAt_wellShaped (show i < (q.dims.matSlotAt i f).block.region.count q.dims.N by
    rwa [Dims.matSlotAt_count hk])
  have hfit : (q.dims.matSlotAt i f).Fits (q.matrixAt (q.dims.matSlotAt i f).block i).rows
    (q.matrixAt (q.dims.matSlotAt i f).block i).cols := Dims.matSlotAt_fits hk
  have get : ∀ order', q'.getMatrix f i data.length order' = .ok ((q.dims.matSlotAt i f).load order'
      ((q.matrixAt (q.dims.matSlotAt i f).block i).withData
        ((q.dims.matSlotAt i f).store order data (q.matrixAt (q.dims.matSlotAt i f).block i)))) := by
    intro order'
    rw [hc.bound.getMatrix_eq hk hi' order' (by rw [hd]; exact hlen), hd, hA]
  refine ⟨?_, (q.dims.matSlotAt i f).rows, (q.dims.matSlotAt i f).cols, ?_, fun order' => ⟨_, get order', ?_, ?_⟩⟩
  · rw [get, MatSlot.load_store hM hfit hlen]
  · rw [hd, Dims.matrixShape, (Dims.matSlot_eq_ok h.addressable).mpr ⟨hk, hi, rfl⟩]
    rfl
  · rw [MatSlot.length_load, hlen]
  · intro r hr c hcol
    exact MatSlot.load_store_entry hM hfit hlen order' hr hcol

end Matrices

section Vectors

variable [Zero α] [LawfulStored α] {data : List α}

/-- The copy into a last row writes the mirrored entries, and the row holds the data. -/
theorem setAugmented_changed (hs : q.setAugmented i data (q.dims.vecSlotAt i f).augmented = .ok q')
    (hlen : (q.dims.vecSlotAt i f).len = data.length) :
    q.ChangedOnly q' i (Written q.dims i f) ∧
      (∀ block : VecBlock, i < block.region.count q.dims.N → q'.numbers block.region i = q.numbers block.region i) ∧
      ∀ block col0, (q.dims.vecSlotAt i f).augmented = some (block, col0) →
        ∃ M, q'.matrix? block i = some M ∧ ∀ k < data.length, M.entry? (M.rows - 1) (col0 + k) = data[k]? := by
  cases ha : (q.dims.vecSlotAt i f).augmented with
  | none =>
    rw [ha] at hs
    cases hs
    exact ⟨.refl h, fun _ _ => rfl, nofun⟩
  | some at? =>
    obtain ⟨block, col0⟩ := at?
    rw [ha] at hs
    obtain ⟨M, hM, -, hw⟩ := setAugmented_eq_ok.mp hs
    rw [h.matrix?_eq] at hM
    split at hM
    · rename_i hi
      cases hM
      have hfit := (Dims.vecSlotAt_augmented ha).1
      rw [hlen] at hfit
      have hc := h.store_changed (Written q.dims i f)
        (s := MatSlot.lastRow block (q.matrixAt block i).rows col0 data.length)
        (fun k hk => Or.inr ⟨block, col0, ha, rfl, by rw [hlen]; exact hk⟩) hw
      obtain ⟨hc, -, hA⟩ := hc
      refine ⟨hc, fun block' hj => ?_, fun block' col' he => ?_⟩
      · exact (h.writeMatrix?_eq_some.mp hw).2.numbers_apart h.toLaid block'.isFloat_region hj fun e =>
          MatBlock.region_ne_vec block block' (congrArg Prod.fst e).symm
      · cases he
        refine ⟨q'.matrixAt block i, (hc.bound.matrix?_eq block i).trans (if_pos (by rwa [hc.dims])), fun k hk => ?_⟩
        have hM := h.matrixAt_wellShaped hi
        have hentry := @MatSlot.getElem?_store _ _ .columnMajor data _ 0 k hM hfit (Nat.one_mul _) Nat.one_pos hk
        rw [show q'.matrixAt block i = _ from hA]
        refine hentry.trans (congrArg (data[·]?) ?_)
        show 0 + k * 1 = k
        omega
    · cases hM

variable [Neg α]

theorem setVector_changed (hs : q.setVector f i data = .ok q') :
    q.ChangedOnly q' i (Written q.dims i f) ∧ f.kind = .vector ∧ i < f.count q.dims.N ∧
      (q.dims.vecSlotAt i f).len = data.length ∧
      (q.dims.vecSlotAt i f).store? data (q.numbers (q.dims.vecSlotAt i f).block.region i) =
        some (q'.numbers (q.dims.vecSlotAt i f).block.region i) ∧
      ∀ block col0, (q.dims.vecSlotAt i f).augmented = some (block, col0) →
        ∃ M, q'.matrix? block i = some M ∧ ∀ k < data.length, M.entry? (M.rows - 1) (col0 + k) = data[k]? := by
  obtain ⟨s, hslot, hlen, x, y, q₁, hx, hy, hw, ha⟩ := setVector_eq_ok.mp hs
  obtain ⟨hk, hi, rfl⟩ := (Dims.vecSlot_eq_ok h.addressable).mp hslot
  have hj : i < (q.dims.vecSlotAt i f).block.region.count q.dims.N := by rwa [Dims.vecSlotAt_count hk]
  rw [h.vector?_eq, if_pos hj] at hx
  cases hx
  obtain ⟨hly, w⟩ := h.writeVector?_eq_some.mp hw
  have hc₁ : q.ChangedOnly q₁ i (Written q.dims i f) := by
    refine w.changedOnly h (VecBlock.isFloat_region _) (by rw [hly, VecBlock.entries_region]) fun k _ hno => ?_
    exact VecSlot.getElem?_store?_apart hy fun hkk => hno (Or.inl ((Dims.owns_vector hk).mpr ⟨rfl, hkk⟩))
  have hy₁ := numbers_written w (by rw [hly, VecBlock.entries_region])
  rw [← w.dims] at ha hlen
  obtain ⟨hc₂, hkeep, hrow⟩ := hc₁.bound.setAugmented_changed ha hlen
  rw [w.dims] at hc₂ hkeep hrow hlen
  refine ⟨hc₁.trans hc₂, hk, hi, hlen, ?_, hrow⟩
  rw [hy, ← hy₁, ← hkeep _ hj]

/-- Data of the field's length is accepted at every stage that has the field. -/
theorem setVector_accepts (hk : f.kind = .vector) (hi : i < f.count q.dims.N)
    (hlen : (q.dims.vecSlotAt i f).len = data.length) : ∃ q', q.setVector f i data = .ok q' := by
  have hj : i < (q.dims.vecSlotAt i f).block.region.count q.dims.N := by rwa [Dims.vecSlotAt_count hk]
  have hx := h.length_numbers (VecBlock.isFloat_region _) hj
  have hin := Dims.vecSlotAt_inside h.dims (Dims.stage_le hi) hk
  rw [VecBlock.entries_region] at hx
  obtain ⟨y, hy⟩ : ∃ y, (q.dims.vecSlotAt i f).store? data (q.numbers _ i) = some y :=
    ⟨_, VecSlot.store?_eq_some.mpr ⟨⟨by rw [hx]; exact hin, hlen⟩, rfl⟩⟩
  have hly : y.length = (q.dims.vecSlotAt i f).block.len q.dims i := (VecSlot.length_store? hy).trans hx
  obtain ⟨q₁, w⟩ := h.exists_wrote hj (length_encoded (VecBlock.isFloat_region _) (by rw [hly, VecBlock.entries_region]))
  have hb := w.bound h
  have haug : ∃ q', q₁.setAugmented i data (q.dims.vecSlotAt i f).augmented = .ok q' := by
    cases ha : (q.dims.vecSlotAt i f).augmented with
    | none => exact ⟨q₁, rfl⟩
    | some at? =>
      obtain ⟨block, col0⟩ := at?
      have hjm : i < block.region.count q₁.dims.N := by rwa [w.dims, (Dims.vecSlotAt_augmented ha).2]
      have hl : ∀ s : MatSlot, (s.store .columnMajor data (q₁.matrixAt block i)).length =
          (block.shape q₁.dims i).1 * (block.shape q₁.dims i).2 := fun s =>
        MatSlot.length_store.trans (hb.matrixAt_wellShaped hjm)
      obtain ⟨q₂, w₂⟩ := hb.exists_wrote hjm
        (length_encoded block.isFloat_region ((hl _).trans (block.entries_region ..).symm))
      have hfit := (Dims.vecSlotAt_augmented ha).1
      rw [hlen, ← w.dims] at hfit
      exact ⟨q₂, setAugmented_eq_ok.mpr ⟨_, (hb.matrix?_eq block i).trans (if_pos hjm), hfit,
        hb.writeMatrix?_eq_some.mpr ⟨hl _, w₂⟩⟩⟩
  obtain ⟨q', hq'⟩ := haug
  exact ⟨q', setVector_eq_ok.mpr ⟨_, (Dims.vecSlot_eq_ok h.addressable).mpr ⟨hk, hi, rfl⟩, hlen, _, y, q₁,
    (h.vector?_eq _ i).trans (if_pos hj), hy, h.writeVector?_eq_some.mpr ⟨hly, w⟩, hq'⟩⟩

theorem setVector_reads (hneg : ∀ a : α, - -a = a) (hs : q.setVector f i data = .ok q') : q'.ReadsVector f i data := by
  obtain ⟨hc, hk, hi, hlen, hst, hrow⟩ := h.setVector_changed hs
  have hd := hc.dims
  have hj : i < (q.dims.vecSlotAt i f).block.region.count q'.dims.N := by rwa [hd, Dims.vecSlotAt_count hk]
  have hslot : q'.dims.vecSlot f i = .ok (q.dims.vecSlotAt i f) := by
    rw [hd]
    exact (Dims.vecSlot_eq_ok h.addressable).mpr ⟨hk, hi, rfl⟩
  refine ⟨?_, ⟨_, _, hslot, (hc.bound.vector?_eq _ i).trans (if_pos hj), VecSlot.drop_take_store? hst⟩,
    fun s block col0 hs' ha => ?_⟩
  · rw [hc.bound.getVector_eq hk (by rwa [hd]) (by rw [hd]; exact hlen), hd, VecSlot.load?_store? hst hneg]
    rfl
  · rw [hslot] at hs'
    cases hs'
    exact hrow block col0 ha

end Vectors

theorem setIndex_changed {data : List Nat} (hs : q.setIndex f i data = .ok q') :
    q.ChangedOnly q' i (Written q.dims i f) ∧ i ≤ q.dims.N ∧ q'.getIndex f i data.length = .ok data := by
  obtain ⟨hk, hst, limit, block, len, held, hlim, hall, hslot, hheld, hlen, hw⟩ := setIndex_eq_ok.mp hs
  have hk := Field.expectKind_eq_ok.mp hk
  have hi := Dims.checkFieldStage_eq_ok.mp hst
  have hN := Dims.stage_le hi
  rw [Dims.idxSlot?_eq h.addressable hk hN] at hslot
  cases hslot
  obtain ⟨hld, w⟩ := h.writeIndices?_eq_some.mp hw
  have hle : data.length = f.idxBlock.region.entries q.dims i := by rw [hld, f.idxBlock.entries_region]
  have hc : q.ChangedOnly q' i (Written q.dims i f) :=
    w.changedOnly_words h f.idxBlock.isFloat_region hle fun k _ hno => absurd (Or.inl ((Dims.owns_index hk).mpr rfl)) hno
  have hfit : ∀ k ∈ data, k < Word.limit := fun k hkd =>
    Nat.lt_trans (hall k hkd) (Dims.indexLimit?_lt hlim)
  refine ⟨hc, hN, ?_⟩
  rw [hld, ← w.dims, hc.bound.getIndex_eq hk (by rwa [w.dims]), w.words_self rfl hle, Layout.map_decode_encode hfit]

end Bound

/-! ## The store law -/

/-- What setting fields guarantees of every reachable problem. -/
theorem field_store_law [Zero α] [Neg α] [LawfulStored α] (hneg : ∀ a : α, - -a = a) {q : Qp α} (h : q.Reachable)
    (i : Nat) :
    (∀ f data order q', q.setMatrix f i data order = .ok q' → q.Frames q' f i ∧ q'.ReadsMatrix f i order data) ∧
    (∀ f data q', q.setVector f i data = .ok q' → q.Frames q' f i ∧ q'.ReadsVector f i data) ∧
    (∀ f data q', q.setIndex f i data = .ok q' → q.Frames q' f i ∧ q'.getIndex f i data.length = .ok data) ∧
    (∀ name data q', q.set name i data = .ok q' → ∃ f, Field.ofName? name = some f ∧ q.Frames q' f i ∧
      (q'.ReadsMatrix f i .columnMajor data ∨ q'.ReadsVector f i data) ∧ q'.get name i data.length = .ok data) ∧
    (i ≤ q.dims.N → q.JoinsBounds i) := by
  have hb := h.bound
  have matrix : ∀ f data order q', q.setMatrix f i data order = .ok q' →
      q.Frames q' f i ∧ q'.ReadsMatrix f i order data := by
    intro f data order q' hs
    obtain ⟨hc, -, hi, -⟩ := hb.setMatrix_changed hs
    exact ⟨hc.frames hb (Dims.stage_le hi), hb.setMatrix_reads hs⟩
  have vector : ∀ f data q', q.setVector f i data = .ok q' → q.Frames q' f i ∧ q'.ReadsVector f i data := by
    intro f data q' hs
    obtain ⟨hc, -, hi, -⟩ := hb.setVector_changed hs
    exact ⟨hc.frames hb (Dims.stage_le hi), hb.setVector_reads hneg hs⟩
  refine ⟨matrix, vector, fun f data q' hs => ?_, fun name data q' hs => ?_, hb.joinsBounds⟩
  · obtain ⟨hc, hi, hr⟩ := hb.setIndex_changed hs
    exact ⟨hc.frames hb hi, hr⟩
  · obtain ⟨f, hf, hs⟩ := set_eq_ok.mp hs
    refine ⟨f, hf, ?_⟩
    rw [get_named hf]
    rcases hs with ⟨hk, hs⟩ | ⟨hk, hs⟩
    · obtain ⟨hfr, hr⟩ := matrix f data _ q' hs
      rw [hk]
      exact ⟨hfr, Or.inl hr, hr.same⟩
    · obtain ⟨hfr, hr⟩ := vector f data q' hs
      rw [hk]
      exact ⟨hfr, Or.inr hr, hr.same⟩

theorem field_store_law_upper_bound : ∃ q q' : Qp Binary.Double, q.Reachable ∧ q.setVector .ub 0 [1, 1] = .ok q' ∧
    q'.getVector .ub 0 2 = .ok [1, 1] ∧ q'.getVector .lb 0 2 = q.getVector .lb 0 2 := by
  have hd : Dims.Consistent ⟨1, [2, 1], [1, 0], [2, 1], [1, 0], [1, 1], [1, 0], [1, 1]⟩ := by decide
  obtain ⟨q, hb, hq, -⟩ := @bind_filled Binary.Double _ _ hd _ rfl
  have hr : q.Reachable := .bind hd hb
  obtain ⟨q', hs⟩ : ∃ q', q.setVector .ub 0 [1, 1] = .ok q' :=
    hr.bound.setVector_accepts rfl (by rw [hq]; decide) (by rw [hq]; decide)
  obtain ⟨-, vector, -⟩ := field_store_law Binary.Double.neg_neg hr 0
  obtain ⟨hfr, hreads⟩ := vector .ub _ q' hs
  exact ⟨q, q', hr, hs, hreads.same, (hfr.reads .lb 0 (fun _ => ⟨nofun, rfl⟩) 2).2.1⟩

end Qp

end HorizonQp
