/-
  HorizonQp.Proofs.Staged.Contents — problems with any data.

  A write over one array reaches no other (`Wrote.numbers_apart`, `Wrote.words_apart`), so
  the arrays of a problem can be written in turn, in any order and as often as one likes,
  and each holds what was last written to it. Whatever the arrays of consistent dimensions
  are to hold, some reachable problem holds it (`exists_contents`), and if storing
  loses none of the numbers, its stages are made of just these data (`exists_stages`).
-/

import HorizonQp.Proofs.Qp.Reachable
import HorizonQp.Proofs.Staged.Read

namespace HorizonQp

open Linear (Matrix)

/-- What the arrays of a problem of dimensions `d` are to hold. -/
structure Contents (α : Type) (d : Dims) where
  numbers : RegionKind → Nat → List α
  words : RegionKind → Nat → List Nat
  length_numbers : ∀ kind i, kind.isFloat = true → i < kind.count d.N → (numbers kind i).length = kind.entries d i
  length_words : ∀ kind i, kind.isFloat = false → i < kind.count d.N → (words kind i).length = kind.entries d i
  words_lt : ∀ kind i, kind.isFloat = false → i < kind.count d.N → ∀ n ∈ words kind i, n < Word.limit

namespace Contents

/-- Contents given entry by entry. -/
def ofEntries {α : Type} (d : Dims) (number : RegionKind → Nat → Nat → α) (word : RegionKind → Nat → Nat → Nat)
    (hword : ∀ kind i k, word kind i k < Word.limit) : Contents α d where
  numbers kind i := (List.range (kind.entries d i)).map (number kind i)
  words kind i := (List.range (kind.entries d i)).map (word kind i)
  length_numbers kind i _ _ := by rw [List.length_map, List.length_range]
  length_words kind i _ _ := by rw [List.length_map, List.length_range]
  words_lt kind i _ _ n hn := by
    obtain ⟨k, -, rfl⟩ := List.mem_map.mp hn
    exact hword kind i k

variable {α : Type} [Stored α] {d : Dims} (c : Contents α d)

/-- The array of a kind at stage `i` holds what it is to hold, numbers the way storing leaves them. -/
def HeldAt (q : Qp α) (kind : RegionKind) (i : Nat) : Prop :=
  if kind.isFloat then q.numbers kind i = (c.numbers kind i).map fun x => Stored.decode (Stored.encode x)
  else q.words kind i = c.words kind i

variable {c} {q q' : Qp α} {kind : RegionKind} {i : Nat}

theorem heldAt_numbers (hf : kind.isFloat = true) :
    c.HeldAt q kind i ↔ q.numbers kind i = (c.numbers kind i).map fun x => Stored.decode (Stored.encode x) := by
  rw [HeldAt, if_pos hf]

theorem heldAt_words (hf : kind.isFloat = false) : c.HeldAt q kind i ↔ q.words kind i = c.words kind i := by
  rw [HeldAt, hf, if_neg Bool.false_ne_true]

/-- A write over another array keeps it. -/
theorem HeldAt.of_wrote {kind' : RegionKind} {j : Nat} {bs : List UInt8} (h : q.Laid) (hc : c.HeldAt q kind' j)
    (hj : j < kind'.count q.dims.N) (w : q.Wrote q' kind i bs) (hne : (kind', j) ≠ (kind, i)) :
    c.HeldAt q' kind' j := by
  cases hf : kind'.isFloat with
  | true =>
    rw [heldAt_numbers hf] at hc ⊢
    rw [w.numbers_apart h hf hj hne, hc]
  | false =>
    rw [heldAt_words hf] at hc ⊢
    rw [w.words_apart h hf hj hne, hc]

/-! ## One array -/

section Write

variable [FixedWidth α] [Neg α] (h : q.Reachable) (hd : q.dims = d)
include h hd

/-- Numbers can be written over an array, where some call does so. -/
theorem exists_numbers (hf : kind.isFloat = true) (hi : i < kind.count d.N)
    (hcall : ∀ q' (data : List α), data.length = kind.entries d i → q.Wrote q' kind i (data.flatMap Stored.encode) →
      ∃ call : Call α, call.run q = .ok q') :
    ∃ q' bs, q'.Reachable ∧ q.Wrote q' kind i bs ∧ c.HeldAt q' kind i := by
  subst hd
  have hlen := c.length_numbers kind i hf hi
  obtain ⟨q', w⟩ := h.bound.exists_wrote hi (Qp.length_encoded hf hlen)
  obtain ⟨call, hrun⟩ := hcall q' _ hlen w
  exact ⟨q', _, Call.after_of_ok hrun ▸ .call call h, w, (heldAt_numbers hf).mpr (w.numbers_self rfl hlen)⟩

theorem exists_matrix (block : MatBlock) (hi : i < block.region.count d.N) :
    ∃ q' bs, q'.Reachable ∧ q.Wrote q' block.region i bs ∧ c.HeldAt q' block.region i := by
  subst hd
  refine exists_numbers h rfl block.isFloat_region hi fun q' data hlen w => ⟨.writeMatrix block i data, ?_⟩
  rw [block.entries_region] at hlen
  exact Attempt.require_eq_ok.mpr (h.bound.writeMatrix?_eq_some.mpr ⟨hlen, w⟩)

theorem exists_vector (block : VecBlock) (hi : i < block.region.count d.N) :
    ∃ q' bs, q'.Reachable ∧ q.Wrote q' block.region i bs ∧ c.HeldAt q' block.region i := by
  subst hd
  refine exists_numbers h rfl block.isFloat_region hi fun q' data hlen w => ⟨.writeVector block i data, ?_⟩
  rw [block.entries_region] at hlen
  exact Attempt.require_eq_ok.mpr (h.bound.writeVector?_eq_some.mpr ⟨hlen, w⟩)

theorem exists_indices (block : IdxBlock) (hi : i < block.region.count d.N) :
    ∃ q' bs, q'.Reachable ∧ q.Wrote q' block.region i bs ∧ c.HeldAt q' block.region i := by
  subst hd
  have hlen := c.length_words block.region i block.isFloat_region hi
  have hbytes : ((c.words block.region i).flatMap Word.encode).length = q.bytesOf block.region i := by
    rw [Layout.wordBytes_length, hlen]
    cases block <;> rfl
  obtain ⟨q', w⟩ := h.bound.exists_wrote hi hbytes
  rw [block.entries_region] at hlen
  have hw := h.bound.writeIndices?_eq_some.mpr ⟨hlen, w⟩
  have hafter : (Call.writeIndices block i _).after q = q' := Call.after_of_ok (Attempt.require_eq_ok.mpr hw)
  refine ⟨q', _, hafter ▸ .call _ h, w, (heldAt_words block.isFloat_region).mpr ?_⟩
  rw [w.words_self rfl (hlen.trans (block.entries_region _ _).symm),
    Layout.map_decode_encode (c.words_lt block.region i block.isFloat_region hi)]

theorem exists_array (kind : RegionKind) (hi : i < kind.count d.N) :
    ∃ q' bs, q'.Reachable ∧ q.Wrote q' kind i bs ∧ c.HeldAt q' kind i := by
  cases kind with
  | idxHeaders => exact absurd hi (Nat.not_lt_zero _)
  | matHeaders => exact absurd hi (Nat.not_lt_zero _)
  | vecHeaders => exact absurd hi (Nat.not_lt_zero _)
  | idxb => exact exists_indices h hd .idxb hi
  | idxs => exact exists_indices h hd .idxs hi
  | BAbt => exact exists_matrix h hd .BAbt hi
  | RSQrq => exact exists_matrix h hd .RSQrq hi
  | DCt => exact exists_matrix h hd .DCt hi
  | Z => exact exists_vector h hd .Z hi
  | rqz => exact exists_vector h hd .rqz hi
  | b => exact exists_vector h hd .b hi
  | d => exact exists_vector h hd .d hi
  | m => exact exists_vector h hd .m hi

/-! ## All arrays -/

/-- Arrays written in turn hold their contents in the end. -/
theorem exists_arrays (places : List (RegionKind × Nat)) (hp : ∀ p ∈ places, p.2 < p.1.count d.N) :
    ∃ q' : Qp α, q'.Reachable ∧ q'.dims = d ∧ ∀ p ∈ places, c.HeldAt q' p.1 p.2 := by
  induction places with
  | nil => exact ⟨q, h, hd, nofun⟩
  | cons place places ih =>
    rw [List.forall_mem_cons] at hp
    obtain ⟨q₁, h₁, hd₁, hheld⟩ := ih hp.2
    obtain ⟨q', bs, h', w, hself⟩ := exists_array (c := c) h₁ hd₁ place.1 hp.1
    refine ⟨q', h', w.dims.trans hd₁, List.forall_mem_cons.mpr ⟨hself, fun p hmem => ?_⟩⟩
    by_cases heq : p = place
    · rwa [heq]
    · have hin := hp.2 p hmem
      exact (hheld p hmem).of_wrote h₁.bound.toLaid (by rwa [hd₁]) w heq

end Write

/-- Where the arrays of the dimensions are. -/
def places (d : Dims) : List (RegionKind × Nat) :=
  RegionKind.all.flatMap fun kind => (List.range (kind.count d.N)).map (kind, ·)

theorem mem_places {p : RegionKind × Nat} : p ∈ places d ↔ p.2 < p.1.count d.N := by
  have hall : p.1 ∈ RegionKind.all := by cases p.1 <;> decide
  simp only [places, List.mem_flatMap, List.mem_map, List.mem_range]
  constructor
  · intro ⟨kind, _, i, hi, hp⟩
    rwa [← hp]
  · intro hi
    exact ⟨p.1, hall, p.2, hi, rfl⟩

/-- Whatever the arrays of consistent dimensions are to hold, some reachable problem holds it. -/
theorem exists_contents [FixedWidth α] [Neg α] (hd : d.Consistent) {l : Layout}
    (hl : Layout.plan (Stored.width α) d = .ok l) (c : Contents α d) :
    ∃ q : Qp α, q.Reachable ∧ q.dims = d ∧ ∀ kind i, i < kind.count d.N → c.HeldAt q kind i := by
  obtain ⟨q₀, hb, hq₀, -⟩ := Qp.bind_filled hd hl
  obtain ⟨q, h, hq, hheld⟩ := exists_arrays (c := c) (.bind hd hb) hq₀ (places d) fun p hp => mem_places.mp hp
  exact ⟨q, h, hq, fun kind i hi => hheld (kind, i) (mem_places.mpr hi)⟩

/-! ## Stages -/

/-- The stage that the contents make. -/
def stageAt (c : Contents α d) (i : Nat) : Stage α where
  nu := d.nuAt i
  nx := d.nxAt i
  nb := d.nbAt i
  ng := d.ngAt i
  ns := d.nsAt i
  RSQrq := ⟨(MatBlock.RSQrq.shape d i).1, (MatBlock.RSQrq.shape d i).2, c.numbers .RSQrq i⟩
  DCt := ⟨(MatBlock.DCt.shape d i).1, (MatBlock.DCt.shape d i).2, c.numbers .DCt i⟩
  rqz := c.numbers .rqz i
  d := c.numbers .d i
  m := c.numbers .m i
  Z := c.numbers .Z i
  idxb := c.words .idxb i
  idxs := c.words .idxs i
  step :=
    if i < d.N then
      some ⟨d.nuAt (i + 1), ⟨(MatBlock.BAbt.shape d i).1, (MatBlock.BAbt.shape d i).2, c.numbers .BAbt i⟩, c.numbers .b i⟩
    else none

theorem stageAt_eq (hq : q.dims = d) (hheld : ∀ kind i, i < kind.count d.N → c.HeldAt q kind i)
    (hexact : ∀ kind i, ∀ x ∈ c.numbers kind i, Stored.decode (Stored.encode x) = x) (hi : i ≤ d.N) :
    q.stageAt i = c.stageAt i := by
  subst hq
  have hstage : i < q.dims.N + 1 := Nat.lt_succ_of_le hi
  have numbers (kind : RegionKind) (j : Nat) (hf : kind.isFloat = true) (hj : j < kind.count q.dims.N) :
      q.numbers kind j = c.numbers kind j := by
    rw [(heldAt_numbers hf).mp (hheld kind j hj), List.map_congr_left (hexact kind j), List.map_id']
  have words (kind : RegionKind) (hf : kind.isFloat = false) (hj : i < kind.count q.dims.N) :
      q.words kind i = c.words kind i := (heldAt_words hf).mp (hheld kind i hj)
  have hstep : q.stepAt i = (c.stageAt i).step := by
    unfold Qp.stepAt stageAt
    split
    · rename_i hlt
      rw [Qp.matrixAt, MatBlock.region, numbers .BAbt i rfl hlt, numbers .b i rfl hlt]
    · rfl
  rw [Qp.stageAt, hstep]
  simp only [Qp.matrixAt, MatBlock.region, numbers .RSQrq i rfl hstage, numbers .DCt i rfl hstage,
    numbers .rqz i rfl hstage, numbers .d i rfl hstage, numbers .m i rfl hstage, numbers .Z i rfl hstage,
    words .idxb rfl hstage, words .idxs rfl hstage]
  rfl

/-- Some reachable problem is made of just these data, if storing loses none of the numbers. -/
theorem exists_stages [FixedWidth α] [Neg α] (hd : d.Consistent) {l : Layout}
    (hl : Layout.plan (Stored.width α) d = .ok l) (c : Contents α d)
    (hexact : ∀ kind i, ∀ x ∈ c.numbers kind i, Stored.decode (Stored.encode x) = x) :
    ∃ q : Qp α, q.Reachable ∧ q.dims = d ∧ q.stages? = some ((List.range (d.N + 1)).map c.stageAt) := by
  obtain ⟨q, h, hq, hheld⟩ := exists_contents hd hl c
  refine ⟨q, h, hq, h.bound.stages?_eq.trans ?_⟩
  rw [Qp.stages, hq]
  refine congrArg some (List.map_congr_left fun i hi => stageAt_eq hq hheld hexact ?_)
  exact Nat.le_of_lt_succ (List.mem_range.mp hi)

end Contents

end HorizonQp
