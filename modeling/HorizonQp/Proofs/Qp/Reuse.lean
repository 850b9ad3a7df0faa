/-
  HorizonQp.Proofs.Qp.Reuse — a block serves every smaller problem.

  Dimensions lie within others when their horizon is no longer and no stage has more of
  anything (`Dims.Within`). Each array then has no more entries than the one in its place, and
  there are no more arrays: a stage that was the last gains its matrix of dynamics when others
  are appended. Rounding to cache lines keeps the order, so it carries over from the arrays to
  the regions (`RegionKind.room_le`) and to the whole (`Layout.memsize_planned_le`).

  What a problem is said to require is that size, or the greatest word when no word can hold
  it (`Layout.required?_eq`). Both are ordered as the sizes are, and a block that holds the
  larger problem holds the smaller one at the same base (`Qp.serves_smaller`).
-/

import HorizonQp.Binary.Numbers
import HorizonQp.Proofs.Layout.Exact
import HorizonQp.Proofs.Qp.Calls

namespace HorizonQp

open Word (roundUp limit)
open RegionKind (items heads floats)

/-! ## Smaller dimensions -/

/-- The horizon is no longer, and no stage of it has more of anything. -/
structure Dims.Within (d d' : Dims) : Prop where
  N : d.N ≤ d'.N
  nx : ∀ i ≤ d.N, d.nxAt i ≤ d'.nxAt i
  nu : ∀ i ≤ d.N, d.nuAt i ≤ d'.nuAt i
  nb : ∀ i ≤ d.N, d.nbAt i ≤ d'.nbAt i
  ng : ∀ i ≤ d.N, d.ngAt i ≤ d'.ngAt i
  ns : ∀ i ≤ d.N, d.nsAt i ≤ d'.nsAt i

namespace Dims.Within

variable {d d' : Dims} (h : d.Within d') {i : Nat}
include h

theorem nux (hi : i ≤ d.N) : d.nuxAt i ≤ d'.nuxAt i := Nat.add_le_add (h.nu i hi) (h.nx i hi)

theorem nv (hi : i ≤ d.N) : d.nuxAt i + 2 * d.nsAt i ≤ d'.nuxAt i + 2 * d'.nsAt i :=
  Nat.add_le_add (h.nux hi) (Nat.mul_le_mul_left 2 (h.ns i hi))

theorem nc (hi : i ≤ d.N) : d.ncAt i ≤ d'.ncAt i :=
  Nat.mul_le_mul_left 2 (Nat.add_le_add (Nat.add_le_add (h.nb i hi) (h.ng i hi)) (h.ns i hi))

end Dims.Within

/-! ## Smaller regions -/

namespace RegionKind

variable {d d' : Dims} (h : d.Within d') {size size' : Nat} (hsize : size ≤ size') (kind : RegionKind)

theorem count_mono {N N' : Nat} (hN : N ≤ N') : kind.count N ≤ kind.count N' := by
  cases kind <;> simp only [count] <;> omega

theorem entryWidth_mono (hsize : size ≤ size') : kind.entryWidth size ≤ kind.entryWidth size' := by
  unfold entryWidth
  split
  · exact hsize
  · exact Nat.le_refl _

include h

theorem entries_le {i : Nat} (hi : i < kind.count d.N) : kind.entries d i ≤ kind.entries d' i := by
  have stage {n : Nat} (hn : n < d.N + 1) : n ≤ d.N := Nat.le_of_lt_succ hn
  cases kind with
  | idxHeaders | matHeaders | vecHeaders => exact Nat.le_refl _
  | idxb => exact h.nb i (stage hi)
  | idxs => exact h.ns i (stage hi)
  | BAbt => exact Nat.mul_le_mul (Nat.succ_le_succ (h.nux (Nat.le_of_lt hi))) (h.nx (i + 1) hi)
  | RSQrq => exact Nat.mul_le_mul (Nat.succ_le_succ (h.nux (stage hi))) (h.nux (stage hi))
  | DCt => exact Nat.mul_le_mul (h.nux (stage hi)) (h.ng i (stage hi))
  | Z => exact Nat.mul_le_mul_left 2 (h.ns i (stage hi))
  | rqz => exact h.nv (stage hi)
  | b => exact h.nx (i + 1) hi
  | d | m => exact h.nc (stage hi)

include hsize

theorem stride_le {i : Nat} (hi : i < kind.count d.N) : kind.stride size d i ≤ kind.stride size' d' i := by
  have hbytes : kind.bytes size d i ≤ kind.bytes size' d' i :=
    Nat.mul_le_mul (kind.entries_le h hi) (kind.entryWidth_mono hsize)
  unfold stride
  split
  · exact Word.roundUp_mono hbytes
  · exact hbytes

/-- The arrays of a kind, taken together. -/
theorem total_stride_le :
    total ((List.range (kind.count d.N)).map (kind.stride size d)) ≤
      total ((List.range (kind.count d'.N)).map (kind.stride size' d')) :=
  total_range_le (kind.count_mono h.N) fun _ hi => kind.stride_le h hsize hi

theorem room_le : kind.room size d ≤ kind.room size' d' := by
  have table (a b : Nat) (width : Nat) : (a * d.N + b * (d.N + 1)) * width ≤ (a * d'.N + b * (d'.N + 1)) * width :=
    Nat.mul_le_mul_right width (Nat.add_le_add (Nat.mul_le_mul_left a h.N) (Nat.mul_le_mul_left b (Nat.succ_le_succ h.N)))
  cases kind with
  | idxHeaders => simpa only [room, Nat.zero_mul, Nat.zero_add] using table 0 2 IdxHeader.width
  | matHeaders => simpa only [room, Nat.one_mul] using table 1 2 MatHeader.width
  | vecHeaders => simpa only [room, Nat.one_mul] using table 1 4 VecHeader.width
  | rqz => exact Word.roundUp_mono (total_stride_le h hsize .rqz)
  | b => exact Word.roundUp_mono (total_stride_le h hsize .b)
  | d => exact Word.roundUp_mono (total_stride_le h hsize .d)
  | m => exact Word.roundUp_mono (total_stride_le h hsize .m)
  | idxb => exact total_stride_le h hsize .idxb
  | idxs => exact total_stride_le h hsize .idxs
  | BAbt => exact total_stride_le h hsize .BAbt
  | RSQrq => exact total_stride_le h hsize .RSQrq
  | DCt => exact total_stride_le h hsize .DCt
  | Z => exact total_stride_le h hsize .Z

theorem total_items_le (kinds : List RegionKind) :
    total ((items size d kinds).map (·.2)) ≤ total ((items size' d' kinds).map (·.2)) := by
  simp only [items, List.map_map]
  exact total_map_le fun kind _ => kind.room_le h hsize

end RegionKind

/-! ## Smaller blocks -/

namespace Layout

variable {d d' : Dims} {size size' : Nat}

theorem memsize_planned_le (h : d.Within d') (hsize : size ≤ size') :
    (planned size d).memsize ≤ (planned size' d').memsize := by
  have hheads := Word.roundUp_mono (RegionKind.total_items_le h hsize heads)
  have hfloats := RegionKind.total_items_le h hsize floats
  exact Nat.add_le_add_right (Nat.add_le_add hheads hfloats) 64

/-- What is required is the size of the plan, cut off at the greatest word. -/
theorem required?_eq (s : d.Spanned) (hst : Word.allocates Word.width d.stages = true) (hsize : 0 < size) :
    required? size d = some (min (planned size d).memsize Word.greatest) := by
  have hgreatest : limit = Word.greatest + 1 := rfl
  cases hp : plan size d with
  | ok l =>
    rcases plan_eq_ok s hp with ⟨rfl, hlt, -⟩
    rw [required?, hp, Nat.min_eq_left (by omega)]
  | error failure =>
    have hge : limit ≤ (planned size d).memsize := by
      refine Nat.le_of_not_lt fun hlt => ?_
      rw [plan_of_lt s hst hsize hlt] at hp
      cases hp
    cases plan_fails s hst failure hp
    rw [required?, hp, Nat.min_eq_right (by omega)]

end Layout

namespace Qp

variable {α β : Type} [Stored α] [Stored β]

/-- A problem requires no more than one that it lies within, of numbers that are no narrower,
    and every block that holds the larger problem holds it too. -/
theorem serves_smaller (hpos : 0 < Stored.width α) (hwidth : Stored.width α ≤ Stored.width β) {d d' : Dims}
    (s : d.Shaped) (s' : d'.Shaped) (hmem : Word.allocates Word.width d'.nx.length = true) (h : d.Within d') :
    (∃ m m', Layout.required? (Stored.width α) d = some m ∧ Layout.required? (Stored.width β) d' = some m' ∧ m ≤ m') ∧
    ∀ b : Block, (∃ q' : Qp β, bind d' b = .ok q') → ∃ q : Qp α, bind d b = .ok q := by
  have hst' : Word.allocates Word.width d'.stages = true := by rwa [s'.nx] at hmem
  have hst : Word.allocates Word.width d.stages = true :=
    decide_eq_true (Nat.le_trans (Nat.mul_le_mul_right _ (Nat.succ_le_succ h.N)) (of_decide_eq_true hst'))
  have hle := Layout.memsize_planned_le h hwidth
  refine ⟨⟨_, _, Layout.required?_eq s.spanned hst hpos,
    Layout.required?_eq s'.spanned hst' (Nat.lt_of_lt_of_le hpos hwidth), ?_⟩, fun b ⟨q', hq'⟩ => ?_⟩
  · omega
  rcases bind_eq_ok.mp hq' with ⟨-, hplan, hsize, hroom, -⟩
  rcases Layout.plan_eq_ok s'.spanned hplan with ⟨hlayout, hlt, -⟩
  rw [hlayout] at hsize hroom hlt
  -- the covered bytes are the size less a cache line in both
  have hused : (Layout.planned (Stored.width α) d).used ≤ (Layout.planned (Stored.width β) d').used :=
    Nat.le_of_add_le_add_right hle
  have hplan := Layout.plan_of_lt s.spanned hst hpos (Nat.lt_of_le_of_lt hle hlt)
  rcases bind_accepts (α := α) s.spanned hplan (Nat.le_trans hle hsize)
    (Nat.le_trans (Nat.add_le_add_left hused _) hroom) with ⟨q, hq, -⟩
  exact ⟨q, hq⟩

/-- A block of doubles for two stages, whose base is as late as it can be, also holds one stage
    of singles. -/
theorem serves_smaller_single_stage : ∃ (d d' : Dims) (m m' : Nat),
    d = ⟨0, [1], [1], [1], [1], [0], [1], [0]⟩ ∧ d' = ⟨1, [2, 1], [1, 0], [2, 1], [1, 0], [1, 1], [1, 0], [1, 1]⟩ ∧
    Layout.required? (Stored.width Binary.Single) d = some m ∧ Layout.required? (Stored.width Binary.Double) d' = some m' ∧
    m ≤ m' ∧ ∃ q : Qp Binary.Single, bind d ⟨Array.replicate m' 0xff, 63⟩ = .ok q := by
  have hin : Dims.Within ⟨0, [1], [1], [1], [1], [0], [1], [0]⟩ ⟨1, [2, 1], [1, 0], [2, 1], [1, 0], [1, 1], [1, 0], [1, 1]⟩ := by
    constructor
    all_goals decide
  have s : Dims.Shaped ⟨0, [1], [1], [1], [1], [0], [1], [0]⟩ := ⟨rfl, rfl, rfl, rfl, rfl, rfl, rfl⟩
  have s' : Dims.Shaped ⟨1, [2, 1], [1, 0], [2, 1], [1, 0], [1, 1], [1, 0], [1, 1]⟩ := ⟨rfl, rfl, rfl, rfl, rfl, rfl, rfl⟩
  rcases serves_smaller (α := Binary.Single) (β := Binary.Double) (by decide) (by decide) s s' (by decide) hin with
    ⟨⟨m, m', hm, hm', hle⟩, hserves⟩
  refine ⟨_, _, m, m', rfl, rfl, hm, hm', hle, hserves _ ?_⟩
  have hm' : some _ = some m' := hm'
  cases hm'
  rcases bind_accepts (α := Binary.Double) (b := ⟨Array.replicate _ 0xff, 63⟩) s'.spanned rfl
    (Nat.le_of_eq Array.size_replicate.symm) (by rw [Block.size, Array.size_replicate]; decide) with ⟨q', hq', -⟩
  exact ⟨q', hq'⟩

end Qp

end HorizonQp
