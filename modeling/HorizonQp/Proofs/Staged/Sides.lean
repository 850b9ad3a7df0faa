/-
  HorizonQp.Proofs.Staged.Sides — the inequality rows of the stages, side by side.

  A side of all stages has the entries of the first stage in front and those of the stages
  behind it after them (`side_front`, `side_back`), so what holds of the rows of each stage
  holds of the rows of the dense problem. Rearranging the rows commutes with what the kernels
  do entry by entry (`pack_zipWith`).
-/

import HorizonQp.Proofs.Dense.Formula
import HorizonQp.Proofs.Staged.Blocks
import HorizonQp.Proofs.Staged.Slacks

namespace HorizonQp

open Finset (range)

/-! ## Rearranged rows -/

namespace Flat

section Rearranged

variable {α : Type} {s : Stage α} {stages : List (Stage α)} {x y : List α}

theorem side_front (hx : s.nc ≤ x.length) (which : Side) {k : Nat} (hk : k < which.length s.dims) (a : α) :
    (side which (s :: stages) x).getD k a = (x.take s.nc).getD (which.offset s.dims + k) a := by
  have hl := length_stage_side hx which
  rw [side, Linear.getD_append_ite, if_pos (by rwa [hl]), Side.part_entry _ _ _ _ hk]

theorem side_back (hx : s.nc ≤ x.length) (which : Side) (k : Nat) (a : α) :
    (side which (s :: stages) x).getD (which.length s.dims + k) a = (side which stages (x.drop s.nc)).getD k a := by
  have hl := length_stage_side hx which
  rw [side, Linear.getD_append_ite, hl, if_neg (Nat.not_lt.mpr (Nat.le_add_right ..)), Nat.add_sub_cancel_left]

theorem pack_entry (hx : x.length = total (stages.map Stage.nc)) (which : Side) {k : Nat}
    (hk : k < which.length (dims stages)) (a : α) :
    (pack stages x).getD (which.offset (dims stages) + k) a = (side which stages x).getD k a := by
  have hpart : which.part (dims stages) (pack stages x) = side which stages x :=
    which.part_append (dims stages) (f := fun which => side which stages x) (length_side hx)
  rw [← Side.part_entry _ _ _ _ hk, hpart]

theorem part_zipWith (f : α → α → α) (d : DenseDims) (which : Side) (x y : List α) :
    which.part d (List.zipWith f x y) = List.zipWith f (which.part d x) (which.part d y) := by
  rw [Side.part, List.drop_zipWith, List.take_zipWith]
  rfl

theorem side_zipWith (f : α → α → α) (which : Side) (hx : x.length = total (stages.map Stage.nc))
    (hy : y.length = total (stages.map Stage.nc)) :
    side which stages (List.zipWith f x y) = List.zipWith f (side which stages x) (side which stages y) := by
  induction stages generalizing x y with
  | nil => rfl
  | cons s stages ih =>
    rw [List.map_cons, total_cons] at hx hy
    have hfx := length_stage_side (s := s) (x := x) (by omega) which
    have hfy := length_stage_side (s := s) (x := y) (by omega) which
    rw [side, side, side, List.take_zipWith, List.drop_zipWith, part_zipWith,
      ih (by rw [List.length_drop]; omega) (by rw [List.length_drop]; omega), List.zipWith_append (hfx.trans hfy.symm)]

/-- Rearranging the rows commutes with combining two vectors entry by entry. -/
theorem pack_zipWith (f : α → α → α) (hx : x.length = total (stages.map Stage.nc))
    (hy : y.length = total (stages.map Stage.nc)) :
    pack stages (List.zipWith f x y) = List.zipWith f (pack stages x) (pack stages y) := by
  have hl (which : Side) : (side which stages x).length = (side which stages y).length := by
    rw [length_side hx, length_side hy]
  simp only [pack, side_zipWith f _ hx hy]
  rw [List.zipWith_append (by simp only [List.length_append, hl]),
    List.zipWith_append (by simp only [List.length_append, hl]), List.zipWith_append (hl .lb)]

end Rearranged

end Flat

variable {K : Type} [ExactField K]

/-! ## Values of the constraints -/

/-- The value at `v` of constraint `k` of a side of the stage. -/
def Stage.value (s : Stage K) (v : List K) (which : Side) (k : Nat) : K :=
  match which with
  | .lb | .ub => v.getD (s.idxb.getD k 0) 0
  | .lg | .ug => ∑ i ∈ range s.nux, s.DCt.entry i k * v.getD i 0

namespace Flat

/-- The value at `z` of constraint `k` of a side of all stages. -/
def value (stages : List (Stage K)) (z : List K) (which : Side) (k : Nat) : K :=
  match which with
  | .lb | .ub => z.getD ((bounded stages).getD k 0) 0
  | .lg | .ug =>
    ∑ i ∈ range (dims stages).nv, blocks Stage.nux Stage.ng (fun s => s.DCt.entry) stages i k * z.getD i 0

variable {s : Stage K} {stages : List (Stage K)}

theorem value_front (hs : s.Shaped) (hi : ∀ k ∈ s.idxb, k < s.nux) (z : List K) (which : Side) {k : Nat}
    (hk : k < which.length s.dims) : value (s :: stages) z which k = s.value (z.take s.nux) which k := by
  cases which with
  | lb | ub =>
    have hk : k < s.nb := hk
    show z.getD ((bounded (s :: stages)).getD k 0) 0 = (z.take s.nux).getD (s.idxb.getD k 0) 0
    rw [bounded_front hs hk, Linear.getD_take _ _ (idxb_lt hs hi hk)]
  | lg | ug =>
    show ∑ i ∈ range (s.nux + (dims stages).nv), _ = ∑ i ∈ range s.nux, s.DCt.entry i k * (z.take s.nux).getD i 0
    rw [sum_rows_front hk]
    refine Finset.sum_congr rfl fun i hi => ?_
    rw [Linear.getD_take _ _ (Finset.mem_range.mp hi)]

theorem value_back (hs : s.Shaped) (hb : (bounded stages).length = (dims stages).nb) (z : List K) (which : Side)
    {k : Nat} (hk : k < which.length (dims stages)) :
    value (s :: stages) z which (which.length s.dims + k) = value stages (z.drop s.nux) which k := by
  cases which with
  | lb | ub =>
    have hk : k < (bounded stages).length := by rwa [hb]
    show z.getD ((bounded (s :: stages)).getD (s.nb + k) 0) 0 = (z.drop s.nux).getD ((bounded stages).getD k 0) 0
    rw [bounded_back hs hk, Linear.getD_drop]
  | lg | ug =>
    show ∑ i ∈ range (s.nux + (dims stages).nv), _ = _
    rw [show Side.length s.dims _ + k = s.ng + k from rfl, sum_rows_back]
    simp only [value, Linear.getD_drop]

end Flat

/-! ## Rows of a stage -/

namespace Stage

variable [DecidableEq K] {s : Stage K}

/-- A row of a stage without slacks, by its side. -/
theorem inequalities_entry (hs : s.Shaped) (hns : s.ns = 0) (hi : ∀ k ∈ s.idxb, k < s.nux) {v : List K}
    (hv : v.length = s.nv) {t : List K} (ht : t.length = s.nc) (which : Side) {k : Nat} (hk : k < which.length s.dims) :
    (s.inequalities v t).getD (which.offset s.dims + k) 0 =
      -s.value v which k + which.sign * s.d.getD (which.offset s.dims + k) 0
        + which.sign * t.getD (which.offset s.dims + k) 0 := by
  rcases inequalities_entries hs hi hv ht with ⟨hlow, hup, -, -⟩
  have hr : s.rows = s.nb + s.ng := rfl
  have hmoved (slack : Nat → K) (k : Nat) : s.moved slack k = 0 := by rw [moved, hns, Finset.sum_range_zero]
  cases which with
  | lb =>
    have hk : k < s.nb := hk
    show (s.inequalities v t).getD (0 + k) 0 = -s.value v .lb k + 1 * s.d.getD (0 + k) 0 + 1 * t.getD (0 + k) 0
    rw [Nat.zero_add, hlow k (by omega), hmoved, constraint_bound v hk, value]
    ring
  | lg =>
    have hk : k < s.ng := hk
    show (s.inequalities v t).getD (s.nb + k) 0 =
      -s.value v .lg k + 1 * s.d.getD (s.nb + k) 0 + 1 * t.getD (s.nb + k) 0
    rw [hlow _ (by omega), hmoved, constraint_general, value]
    ring
  | ub =>
    have hk : k < s.nb := hk
    show (s.inequalities v t).getD (s.rows + k) 0 =
      -s.value v .ub k + -1 * s.d.getD (s.rows + k) 0 + -1 * t.getD (s.rows + k) 0
    rw [hup k (by omega), hmoved, constraint_bound v hk, value]
    ring
  | ug =>
    have hk : k < s.ng := hk
    have hoff : 2 * s.nb + s.ng + k = s.rows + (s.nb + k) := by omega
    show (s.inequalities v t).getD (2 * s.nb + s.ng + k) 0 =
      -s.value v .ug k + -1 * s.d.getD (2 * s.nb + s.ng + k) 0 + -1 * t.getD (2 * s.nb + s.ng + k) 0
    rw [hoff, hup _ (by omega), hmoved, constraint_general, value]
    ring

end Stage

end HorizonQp
