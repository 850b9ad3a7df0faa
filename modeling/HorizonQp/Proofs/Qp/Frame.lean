/-
  HorizonQp.Proofs.Qp.Frame — what a change leaves alone.

  `ChangedOnly` bounds a change of a problem: no byte of the block is another than before
  except in the entries of one stage that it names. A write over an array changes the
  entries only that it gives other values (`Wrote.changedOnly`). An entry that a change
  does not name reads as before (`ChangedOnly.numbers_eq`, `ChangedOnly.words_eq`), and so
  does a field none of whose entries it names (`ChangedOnly.getMatrix`,
  `ChangedOnly.getVector`, `ChangedOnly.getIndex`).
-/

import HorizonQp.Proofs.Qp.Calls
import HorizonQp.Proofs.Qp.Slots

namespace HorizonQp

open Linear (Matrix Order)

namespace Qp

variable {α : Type} [Stored α]

/-- Byte `p` of the block belongs to entry `k` of the array of a kind at stage `i`. -/
structure EntryByte (q : Qp α) (kind : RegionKind) (i k p : Nat) : Prop where
  stage : i < kind.count q.dims.N
  entry : k < kind.entries q.dims i
  start : q.block.base + q.placeOf kind i + k * kind.entryWidth (Stored.width α) ≤ p
  finish : p < q.block.base + q.placeOf kind i + k * kind.entryWidth (Stored.width α) + kind.entryWidth (Stored.width α)

/-- `q'` is `q` but for entries of stage `i` that `touched` names. -/
structure ChangedOnly (q q' : Qp α) (i : Nat) (touched : RegionKind → Nat → Prop) : Prop where
  bound : q'.Bound
  dims : q'.dims = q.dims
  layout : q'.layout = q.layout
  base : q'.block.base = q.block.base
  size : q'.block.size = q.block.size
  bytes : ∀ p, (∀ kind k, touched kind k → ¬ q.EntryByte kind i k p) → q'.block.bytes[p]? = q.block.bytes[p]?

/-! ## Entries and their bytes -/

/-- The bytes of two entries are apart. -/
theorem EntryByte.unique {q : Qp α} (h : q.Bound) {kind kind' : RegionKind} {i i' k k' p : Nat}
    (e : q.EntryByte kind i k p) (e' : q.EntryByte kind' i' k' p) : kind = kind' ∧ i = i' ∧ k = k' := by
  have hend : ∀ {kind i k}, q.EntryByte kind i k p → q.block.base + q.placeOf kind i ≤ p ∧
      p < q.block.base + q.placeOf kind i + q.bytesOf kind i := by
    intro kind i k e
    have hle := Nat.mul_le_mul_right (kind.entryWidth (Stored.width α)) (show k + 1 ≤ _ from e.entry)
    have h1 := e.start
    have h2 := e.finish
    rw [Nat.succ_mul] at hle
    unfold bytesOf RegionKind.bytes
    omega
  by_cases hne : (kind, i) = (kind', i')
  · cases hne
    refine ⟨rfl, rfl, ?_⟩
    have h1 := e.start
    have h2 := e.finish
    have h3 := e'.start
    have h4 := e'.finish
    rcases Nat.lt_trichotomy k k' with hlt | heq | hlt
    · have := Nat.mul_le_mul_right (kind.entryWidth (Stored.width α)) (show k + 1 ≤ k' from hlt)
      rw [Nat.succ_mul] at this
      omega
    · exact heq
    · have := Nat.mul_le_mul_right (kind.entryWidth (Stored.width α)) (show k' + 1 ≤ k from hlt)
      rw [Nat.succ_mul] at this
      omega
  · have hd := h.layout.array_apart e.stage e'.stage hne
    have h1 := hend e
    have h2 := hend e'
    unfold placeOf bytesOf at h1 h2
    omega

/-- An entry is read from its own bytes. -/
theorem Bound.numbers_entry {q : Qp α} (h : q.Bound) {kind : RegionKind} (hf : kind.isFloat = true) {i k : Nat}
    (hi : i < kind.count q.dims.N) (hk : k < kind.entries q.dims i) :
    ∃ bs, q.block.read? (q.placeOf kind i + k * kind.entryWidth (Stored.width α)) (kind.entryWidth (Stored.width α)) =
      some bs ∧ (q.numbers kind i)[k]? = some (Stored.decode bs) := by
  have hr := h.readNumbers?_array hf hi
  rw [Block.readNumbers?_eq] at hr
  rw [RegionKind.entryWidth, if_pos hf]
  exact Block.items_entry hr hk

theorem Bound.words_entry {q : Qp α} (h : q.Bound) {kind : RegionKind} (hf : kind.isFloat = false) {i k : Nat}
    (hi : i < kind.count q.dims.N) (hk : k < kind.entries q.dims i) :
    ∃ bs, q.block.read? (q.placeOf kind i + k * kind.entryWidth (Stored.width α)) (kind.entryWidth (Stored.width α)) =
      some bs ∧ (q.words kind i)[k]? = some (Word.decode bs) := by
  have hr := h.readWords?_array hf hi
  rw [Block.readWords?_eq] at hr
  rw [RegionKind.entryWidth, if_neg (by simp [hf])]
  exact Block.items_entry hr hk

namespace ChangedOnly

variable {q q' : Qp α} {i : Nat} {touched touched' : RegionKind → Nat → Prop}

theorem refl (h : q.Bound) : q.ChangedOnly q i touched := ⟨h, rfl, rfl, rfl, rfl, fun _ _ => rfl⟩

theorem placeOf_eq (c : q.ChangedOnly q' i touched) (kind : RegionKind) (j : Nat) :
    q'.placeOf kind j = q.placeOf kind j := by
  unfold placeOf
  rw [c.dims, c.layout]

theorem trans {q₁ : Qp α} (c : q.ChangedOnly q₁ i touched) (c' : q₁.ChangedOnly q' i touched) :
    q.ChangedOnly q' i touched := by
  refine ⟨c'.bound, c'.dims.trans c.dims, c'.layout.trans c.layout, c'.base.trans c.base, c'.size.trans c.size,
    fun p hp => (c'.bytes p fun kind k ht e => hp kind k ht ?_).trans (c.bytes p hp)⟩
  obtain ⟨h1, h2, h3, h4⟩ := e
  rw [c.dims] at h1 h2
  rw [c.base, c.placeOf_eq] at h3 h4
  exact ⟨h1, h2, h3, h4⟩

section Reads

variable (c : q.ChangedOnly q' i touched) (h : q.Bound)
include c h

/-- The bytes of an entry that is not named are as before. -/
theorem read?_entry {kind : RegionKind} {j k : Nat} (hj : j < kind.count q.dims.N) (hk : k < kind.entries q.dims j)
    (hno : j = i → ¬ touched kind k) :
    q'.block.read? (q.placeOf kind j + k * kind.entryWidth (Stored.width α)) (kind.entryWidth (Stored.width α)) =
      q.block.read? (q.placeOf kind j + k * kind.entryWidth (Stored.width α)) (kind.entryWidth (Stored.width α)) := by
  refine Block.read?_congr c.base c.size fun r hr => c.bytes _ fun kind' k' ht e => ?_
  have e₀ : q.EntryByte kind j k (q.block.base + (q.placeOf kind j + k * kind.entryWidth (Stored.width α)) + r) :=
    ⟨hj, hk, by omega, by omega⟩
  obtain ⟨rfl, rfl, rfl⟩ := e₀.unique h e
  exact hno rfl ht

theorem numbers_eq {kind : RegionKind} (hf : kind.isFloat = true) {j k : Nat} (hj : j < kind.count q.dims.N)
    (hno : j = i → ¬ touched kind k) : (q'.numbers kind j)[k]? = (q.numbers kind j)[k]? := by
  have hj' : j < kind.count q'.dims.N := by rwa [c.dims]
  by_cases hk : k < kind.entries q.dims j
  · obtain ⟨bs, hbs, hx⟩ := h.numbers_entry hf hj hk
    obtain ⟨bs', hbs', hx'⟩ := c.bound.numbers_entry hf hj' (by rwa [c.dims])
    rw [c.placeOf_eq, c.read?_entry h hj hk hno, hbs] at hbs'
    cases hbs'
    rw [hx, hx']
  · have hl := h.length_numbers hf hj
    have hl' := c.bound.length_numbers hf hj'
    rw [c.dims] at hl'
    rw [List.getElem?_eq_none (by omega), List.getElem?_eq_none (by omega)]

theorem words_eq {kind : RegionKind} (hf : kind.isFloat = false) {j k : Nat} (hj : j < kind.count q.dims.N)
    (hno : j = i → ¬ touched kind k) : (q'.words kind j)[k]? = (q.words kind j)[k]? := by
  have hj' : j < kind.count q'.dims.N := by rwa [c.dims]
  by_cases hk : k < kind.entries q.dims j
  · obtain ⟨bs, hbs, hx⟩ := h.words_entry hf hj hk
    obtain ⟨bs', hbs', hx'⟩ := c.bound.words_entry hf hj' (by rwa [c.dims])
    rw [c.placeOf_eq, c.read?_entry h hj hk hno, hbs] at hbs'
    cases hbs'
    rw [hx, hx']
  · have hl := h.length_words hf hj
    have hl' := c.bound.length_words hf hj'
    rw [c.dims] at hl'
    rw [List.getElem?_eq_none (by omega), List.getElem?_eq_none (by omega)]

end Reads

end ChangedOnly

/-! ## A write over an array -/

namespace Wrote

variable {q q' : Qp α} {kind : RegionKind} {i : Nat} {touched : RegionKind → Nat → Prop}

/-- New numbers over an array change the entries that are other than before. -/
theorem changedOnly [Zero α] [LawfulStored α] {ys : List α} (w : q.Wrote q' kind i (ys.flatMap Stored.encode))
    (h : q.Bound) (hf : kind.isFloat = true) (hlen : ys.length = kind.entries q.dims i)
    (hkeep : ∀ k < kind.entries q.dims i, ¬ touched kind k → ys[k]? = (q.numbers kind i)[k]?) :
    q.ChangedOnly q' i touched := by
  refine ⟨w.bound h, w.dims, w.layout, Block.base_write? w.block, Block.size_write? w.block, fun p hp => ?_⟩
  have hr := h.readNumbers?_array hf w.stage
  rw [Block.readNumbers?_eq] at hr
  have hw : kind.entryWidth (Stored.width α) = Stored.width α := if_pos hf
  refine Block.write_items_frame (FixedWidth.width_pos α) FixedWidth.length_encode LawfulStored.encode_decode hr hlen
    w.block fun k hk h1 h2 => ?_
  refine hkeep k hk fun ht => hp kind k ht ⟨w.stage, hk, ?_, ?_⟩
  · rwa [hw]
  · rwa [hw]

theorem changedOnly_words {ns : List Nat} (w : q.Wrote q' kind i (ns.flatMap Word.encode))
    (h : q.Bound) (hf : kind.isFloat = false) (hlen : ns.length = kind.entries q.dims i)
    (hkeep : ∀ k < kind.entries q.dims i, ¬ touched kind k → ns[k]? = (q.words kind i)[k]?) :
    q.ChangedOnly q' i touched := by
  refine ⟨w.bound h, w.dims, w.layout, Block.base_write? w.block, Block.size_write? w.block, fun p hp => ?_⟩
  have hr := h.readWords?_array hf w.stage
  rw [Block.readWords?_eq] at hr
  have hw : kind.entryWidth (Stored.width α) = Word.width := if_neg (by simp [hf])
  refine Block.write_items_frame (by decide) Layout.encode_length (fun _ => Word.encode_decode) hr hlen
    w.block fun k hk h1 h2 => ?_
  refine hkeep k hk fun ht => hp kind k ht ⟨w.stage, hk, ?_, ?_⟩
  · rwa [hw]
  · rwa [hw]

end Wrote

/-! ## Reads of a field -/

namespace ChangedOnly

variable {q q' : Qp α} {i j : Nat} {touched : RegionKind → Nat → Prop} {g : Field}
  (c : q.ChangedOnly q' i touched) (h : q.Bound) (hno : j = i → ∀ kind k, q.dims.Owns i g kind k → ¬ touched kind k)
include c h hno

theorem getMatrix [Zero α] (len : Nat) (order : Order) : q'.getMatrix g j len order = q.getMatrix g j len order := by
  unfold Qp.getMatrix
  rw [c.dims]
  cases hs : q.dims.matSlot g j with
  | error e => rfl
  | ok s =>
    obtain ⟨hk, hj, rfl⟩ := (Dims.matSlot_eq_ok h.addressable).mp hs
    rw [← Dims.matSlotAt_count (d := q.dims) (i := j) hk] at hj
    have hload : (q.dims.matSlotAt j g).load? order (q'.matrixAt (q.dims.matSlotAt j g).block j) =
        (q.dims.matSlotAt j g).load? order (q.matrixAt (q.dims.matSlotAt j g).block j) := by
      refine MatSlot.load?_congr (by simp only [matrixAt, c.dims]) (by simp only [matrixAt, c.dims]) fun r col hc =>
        c.numbers_eq h (MatBlock.isFloat_region _) hj fun hji => ?_
      subst hji
      exact hno rfl _ _ (Dims.owns_entry (M := q.matrixAt _ j) hk rfl hc)
    simp only [Attempt.ok_bind, c.bound.matrix?_eq, h.matrix?_eq, c.dims, if_pos hj, Attempt.require_some, hload]

theorem getVector [Neg α] (len : Nat) : q'.getVector g j len = q.getVector g j len := by
  unfold Qp.getVector
  rw [c.dims]
  cases hs : q.dims.vecSlot g j with
  | error e => rfl
  | ok s =>
    obtain ⟨hk, hj, rfl⟩ := (Dims.vecSlot_eq_ok h.addressable).mp hs
    rw [← Dims.vecSlotAt_count (d := q.dims) (i := j) hk] at hj
    have hl := h.length_numbers (VecBlock.isFloat_region _) hj
    have hl' := c.bound.length_numbers (VecBlock.isFloat_region (q.dims.vecSlotAt j g).block) (by rwa [c.dims])
    rw [c.dims] at hl'
    have hload : (q.dims.vecSlotAt j g).load? (q'.numbers (q.dims.vecSlotAt j g).block.region j) =
        (q.dims.vecSlotAt j g).load? (q.numbers (q.dims.vecSlotAt j g).block.region j) := by
      refine VecSlot.load?_congr (hl'.trans hl.symm) fun k h1 h2 =>
        c.numbers_eq h (VecBlock.isFloat_region _) hj fun hji => ?_
      subst hji
      exact hno rfl _ _ ((Dims.owns_vector hk).mpr ⟨rfl, h1, h2⟩)
    simp only [Attempt.ok_bind, c.bound.vector?_eq, h.vector?_eq, c.dims, if_pos hj, Attempt.require_some, hload]

theorem getIndex (len : Nat) : q'.getIndex g j len = q.getIndex g j len := by
  unfold Qp.getIndex
  rw [c.dims]
  cases hk : g.expectKind .index with
  | error e => rfl
  | ok _ =>
  cases hs : q.dims.checkFieldStage g j with
  | error e => rfl
  | ok _ =>
    have hk := Field.expectKind_eq_ok.mp hk
    have hj := Field.idxBlock_stage hk (Dims.checkFieldStage_eq_ok.mp hs)
    have hi : j ≤ q.dims.N := Dims.stage_le (Dims.checkFieldStage_eq_ok.mp hs)
    rw [Dims.idxSlot?_eq h.addressable hk hi]
    show (Attempt.require (q'.indices? g.idxBlock j) >>= _) = (Attempt.require (q.indices? g.idxBlock j) >>= _)
    rw [c.bound.indices?_eq, h.indices?_eq, c.dims, if_pos hj, if_pos hj]
    have heq : q'.words g.idxBlock.region j = q.words g.idxBlock.region j :=
      List.ext_getElem? fun k => c.words_eq h (IdxBlock.isFloat_region _) hj fun hji => by
        subst hji
        exact hno rfl _ _ ((Dims.owns_index hk).mpr rfl)
    rw [heq]

end ChangedOnly

end Qp

end HorizonQp
