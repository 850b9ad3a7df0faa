/-
  HorizonQp.Proofs.Qp.Binding — what binding does to a block.

  A block that is smaller than the layout asks for is refused, and this is the only way in
  which a consistent problem with a layout is: the cache line that the layout adds to the
  bytes it covers absorbs whatever comes before the base (`bind_outcome`).

  An accepted block is written in two places, the tables of headers and the span of the
  numbers. The span is zero afterwards, so every number of every stage is
  (`Bound.numbers_zero`), and any other byte is as it was (`bind_agree`). The index arrays
  lie apart from both places (`Sound.aside`): they read what the block held there
  (`bind_words`). `BoundOver` collects what is known of the problem.
-/

import HorizonQp.Proofs.Qp.Rewriting
import HorizonQp.Proofs.Qp.Runs

namespace HorizonQp

open Linear (Matrix)
open Block (AgreeBut)

namespace Layout

/-- Byte `k` of the block belongs to the span of the numbers. -/
def IsNumber (l : Layout) (b : Block) (k : Nat) : Prop :=
  b.base + l.floatSpan.1 ≤ k ∧ k < b.base + l.floatSpan.2

/-- Byte `k` of the block is before the base, of an index array, between the index arrays and
    the numbers, or behind all that is covered. -/
def Aside (l : Layout) (b : Block) (k : Nat) : Prop :=
  k < b.base ∨ b.within (l.region .idxb).offset (l.region .idxb).len k ∨
    b.within (l.region .idxs).offset (l.region .idxs).len k ∨
    (b.base + (l.region .idxs).finish ≤ k ∧ k < b.base + l.floatSpan.1) ∨ b.base + l.used ≤ k

/-- What lies aside is neither a header nor a number. -/
theorem Sound.aside {l : Layout} {size : Nat} {d : Dims} (h : l.Sound size d) {b : Block} {k : Nat} (ha : l.Aside b k) :
    ¬l.IsHeader b k ∧ ¬l.IsNumber b k := by
  have hbefore : ∀ kind, isTable kind → (l.region kind).finish ≤ (l.region .idxb).offset := by
    intro kind hk
    rcases hk with rfl | rfl | rfl <;> exact h.region_before (by decide)
  have hindices : (l.region .idxb).finish ≤ (l.region .idxs).offset := h.region_before (by decide)
  have hspan : (l.region .idxs).finish ≤ (l.region .BAbt).offset := h.region_before (by decide)
  have hfirst : l.floatSpan.1 = (l.region .BAbt).offset := rfl
  have hcovered : l.floatSpan.1 ≤ l.used :=
    Nat.le_trans (Nat.le_add_right _ _) (h.region_inside .BAbt)
  have hlast : l.floatSpan.2 = l.used := rfl
  unfold Aside Block.within at ha
  unfold Region.finish at *
  constructor
  · intro hheader
    obtain ⟨kind, hk, h1, h2⟩ := hheader
    have := hbefore kind hk
    omega
  · intro hnumber
    obtain ⟨h1, h2⟩ := hnumber
    omega

end Layout

namespace Qp

variable {α : Type} [Stored α]

/-! ## An accepted block -/

section Accepted

variable {d : Dims} {b : Block} {q : Qp α} (h : bind d b = .ok q)
include h

theorem bind_base : q.block.base = b.base ∧ q.block.size = b.size := by
  obtain ⟨-, -, -, -, b₁, hw, hc⟩ := bind_eq_ok.mp h
  have ha := Layout.writeHeaders?_agree hw
  exact ⟨(Block.base_write? hc).trans ha.base, (Block.size_write? hc).trans ha.size⟩

/-- The numbers are cleared. -/
theorem bind_zero {p : Nat} (hp : q.layout.IsNumber b p) : q.block.bytes[p]? = some 0 := by
  obtain ⟨-, -, -, -, b₁, hw, hc⟩ := bind_eq_ok.mp h
  obtain ⟨h1, h2⟩ := hp
  rw [← (Layout.writeHeaders?_agree hw).base] at h1 h2
  exact clearNumbers?_zero hc h1 h2

/-- Any byte that is no header and no number stays. -/
theorem bind_agree : AgreeBut (fun p => q.layout.IsHeader b p ∨ q.layout.IsNumber b p) b q.block := by
  obtain ⟨-, -, -, -, b₁, hw, hc⟩ := bind_eq_ok.mp h
  have ha := Layout.writeHeaders?_agree hw
  refine (ha.mono fun p hp => Or.inl hp).trans ⟨Block.base_write? hc, Block.size_write? hc, fun p hp => ?_⟩
  refine (Block.getElem?_write? hc p).trans (if_neg fun hin => hp (Or.inr ?_))
  rw [ha.base, List.length_replicate] at hin
  unfold Layout.IsNumber
  omega

/-- An index array reads what the block held at its place. -/
theorem bind_words (hd : d.Consistent) (block : IdxBlock) {i : Nat} (hi : i < block.region.count d.N) :
    b.readWords? (q.placeOf block.region i) (block.len d i) = some (q.words block.region i) := by
  have hb := bound_of_bind hd h
  obtain rfl := (bind_eq_ok.mp h).1
  have hin := hb.layout.array_inside hi
  have hfit := block.region.bytes_le_stride (Stored.width α) q.dims i
  have hr := hb.readWords?_array block.isFloat_region hi
  rw [block.entries_region] at hr
  rw [← hr, Block.readWords?_eq, Block.readWords?_eq]
  refine Block.items_congr (Block.read?_congr (bind_base h).1.symm (bind_base h).2.symm fun k hk => ?_)
  rw [(bind_base h).1]
  have haside : q.layout.Aside b (b.base + q.placeOf block.region i + k) := by
    have hbytes : block.len q.dims i * Word.width = block.region.bytes (Stored.width α) q.dims i := by
      cases block <;> rfl
    unfold placeOf
    unfold Layout.Aside Block.within
    unfold Region.finish at hin
    cases block with
    | idxb => exact Or.inr (Or.inl (by simp only [IdxBlock.region] at hin hbytes hfit ⊢; omega))
    | idxs => exact Or.inr (Or.inr (Or.inl (by simp only [IdxBlock.region] at hin hbytes hfit ⊢; omega)))
  have hno := hb.layout.aside haside
  exact ((bind_agree h).bytes _ fun hp => hp.elim hno.1 hno.2).symm

end Accepted

/-! ## The numbers -/

variable [Zero α] [LawfulStored α]

/-- Where the span of the numbers is zero, every array of numbers is. -/
theorem Bound.numbers_zero {q : Qp α} (h : q.Bound) (hz : ∀ p, q.layout.IsNumber q.block p → q.block.bytes[p]? = some 0)
    {kind : RegionKind} (hf : kind.isFloat = true) {i : Nat} (hi : i < kind.count q.dims.N) :
    q.numbers kind i = List.replicate (kind.entries q.dims i) 0 := by
  have hleaves : Leaves (fun _ _ _ _ => False) q :=
    ⟨fun _ _ _ _ h => h.elim, fun _ _ _ _ h => h.elim,
      fun x h1 h2 _ => hz _ ⟨Nat.add_le_add_left h1 _, Nat.add_lt_add_left h2 _⟩⟩
  apply List.ext_getElem?
  intro k
  by_cases hk : k < kind.entries q.dims i
  · rw [hleaves.zero_entry h hf hi hk fun _ => id, List.getElem?_replicate, if_pos hk]
  · have hl := h.length_numbers hf hi
    rw [List.getElem?_eq_none (by omega), List.getElem?_eq_none (by simp; omega)]

/-! ## The outcome -/

/-- The problem of dimensions `d` and layout `l`, as binding leaves it in the block that was `b`. -/
structure BoundOver (d : Dims) (l : Layout) (b : Block) (q : Qp α) : Prop where
  dims : q.dims = d
  layout : q.layout = l
  base : q.block.base = b.base
  size : q.block.size = b.size
  idxHeaders : q.idxHeaders? = some l.idxHeaders
  matHeaders : q.matHeaders? = some l.matHeaders
  vecHeaders : q.vecHeaders? = some l.vecHeaders
  /-- Every number is zero. -/
  matrix : ∀ block i, i < block.region.count d.N → q.matrix? block i =
    some ⟨(block.shape d i).1, (block.shape d i).2, List.replicate ((block.shape d i).1 * (block.shape d i).2) 0⟩
  vector : ∀ block i, i < block.region.count d.N → q.vector? block i = some (List.replicate (block.len d i) 0)
  span : ∀ p, l.IsNumber b p → q.block.bytes[p]? = some 0
  /-- An index array has the words that the block held at its place. -/
  indices : ∀ block i, i < block.region.count d.N → ∃ header ns, q.idxHeader? block i = some header ∧
    header.len = block.len d i ∧ q.indices? block i = some ns ∧ b.readWords? header.offset header.len = some ns
  /-- Every byte is kept that is no header and no number. -/
  kept : ∀ p, ¬l.IsHeader b p → ¬l.IsNumber b p → q.block.bytes[p]? = b.bytes[p]?
  aside : ∀ p, l.Aside b p → q.block.bytes[p]? = b.bytes[p]?

theorem boundOver_of_bind {d : Dims} (hd : d.Consistent) {b : Block} {q : Qp α} (h : bind d b = .ok q) :
    BoundOver d q.layout b q := by
  have hb := bound_of_bind hd h
  obtain ⟨hbase, hsize⟩ := bind_base h
  obtain ⟨idxs, mats, vecs⟩ := hb.tables
  have hzero : ∀ p, q.layout.IsNumber q.block p → q.block.bytes[p]? = some 0 := by
    intro p hp
    unfold Layout.IsNumber at hp
    rw [hbase] at hp
    exact bind_zero h hp
  have hkept : ∀ p, ¬q.layout.IsHeader b p → ¬q.layout.IsNumber b p → q.block.bytes[p]? = b.bytes[p]? :=
    fun p h1 h2 => (bind_agree h).bytes p fun hp => hp.elim h1 h2
  have hwords := @bind_words α _ d b q h hd
  obtain rfl := (bind_eq_ok.mp h).1
  exact {
    dims := rfl
    layout := rfl
    base := hbase
    size := hsize
    idxHeaders := idxs
    matHeaders := mats
    vecHeaders := vecs
    matrix := fun block i hi => by
      rw [hb.matrix?_eq, if_pos hi, matrixAt, hb.numbers_zero hzero block.isFloat_region hi, block.entries_region]
    vector := fun block i hi => by
      rw [hb.vector?_eq, if_pos hi, hb.numbers_zero hzero block.isFloat_region hi, block.entries_region]
    span := fun p => bind_zero h
    indices := fun block i hi =>
      ⟨_, _, (hb.idxHeader?_eq block i).trans (if_pos hi), rfl, (hb.indices?_eq block i).trans (if_pos hi),
        hwords block hi⟩
    kept := hkept
    aside := fun p hp => hkept p (hb.layout.aside hp).1 (hb.layout.aside hp).2 }

omit [Zero α] [LawfulStored α] in
/-- A block that is too small is refused for its size. -/
theorem bind_refuses {d : Dims} {l : Layout} (hl : Layout.plan (Stored.width α) d = .ok l) {b : Block}
    (hlt : b.size < l.memsize) : bind (α := α) d b = .error (.reported (.capacityExceeded l.memsize b.size)) := by
  rw [bind, hl, Attempt.ok_bind, if_pos hlt]
  rfl

/-- Binding fails only on a block smaller than the layout asks for, and then says so; any other
    block, wherever in its first cache line the base is, holds the new problem and is otherwise
    as it was. -/
theorem bind_outcome {d : Dims} (hd : d.Consistent) {l : Layout} (hl : Layout.plan (Stored.width α) d = .ok l)
    (b : Block) (hbase : b.base < Word.cacheLine) :
    (∀ failure, bind (α := α) d b = .error failure ↔
      b.size < l.memsize ∧ failure = .reported (.capacityExceeded l.memsize b.size)) ∧
    (l.memsize ≤ b.size → ∃ q : Qp α, bind d b = .ok q ∧ BoundOver d l b q) := by
  have hmem := (Layout.plan_sound hd.shaped.spanned hl).memsize
  have accepts : l.memsize ≤ b.size → ∃ q : Qp α, bind d b = .ok q ∧ BoundOver d l b q := by
    intro hsize
    obtain ⟨q, hq, -, hlayout⟩ := bind_accepts (α := α) hd.shaped.spanned hl hsize (by omega)
    have hover := boundOver_of_bind hd hq
    rw [hlayout] at hover
    exact ⟨q, hq, hover⟩
  refine ⟨fun failure => ⟨fun hf => ?_, fun hf => ?_⟩, accepts⟩
  · by_cases hlt : b.size < l.memsize
    · rw [bind_refuses hl hlt] at hf
      cases hf
      exact ⟨hlt, rfl⟩
    · obtain ⟨q, hq, -⟩ := accepts (Nat.le_of_not_lt hlt)
      rw [hq] at hf
      cases hf
  · rw [hf.2]
    exact bind_refuses hl hf.1

/-- A dirty block whose base is as late as it can be: exact in size, and one byte short. -/
theorem bind_outcome_dirty : ∃ (d : Dims) (l : Layout), Layout.plan (Stored.width Binary.Double) d = .ok l ∧
    (∃ q : Qp Binary.Double, bind d ⟨Array.replicate l.memsize 0xff, 63⟩ = .ok q ∧
      BoundOver d l ⟨Array.replicate l.memsize 0xff, 63⟩ q) ∧
    bind (α := Binary.Double) d ⟨Array.replicate (l.memsize - 1) 0xff, 63⟩ =
      .error (.reported (.capacityExceeded l.memsize (l.memsize - 1))) := by
  have hd : Dims.Consistent ⟨1, [2, 1], [1, 0], [2, 1], [1, 0], [1, 1], [1, 0], [1, 1]⟩ := by decide
  have outcome := fun size =>
    @bind_outcome Binary.Double _ _ _ _ hd _ rfl ⟨Array.replicate size 0xff, 63⟩ (Nat.lt_succ_self 63)
  refine ⟨_, _, rfl, (outcome _).2 (Nat.le_of_eq Array.size_replicate.symm), ((outcome _).1 _).mpr ?_⟩
  rw [Block.size, Array.size_replicate]
  exact ⟨by decide, rfl⟩

end Qp

end HorizonQp
