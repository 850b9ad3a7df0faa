/-
  HorizonQp.Proofs.Staged.Blocks — sums over the flattened matrices.

  A row of a block diagonal matrix meets the variables of its own stage only, so a sum over
  all variables is one over those of the first stage (`.._front`) or one over those behind it
  (`.._back`). The equations of a step meet the next stage as well.
-/

import Mathlib.Algebra.BigOperators.Group.Finset.Basic
import HorizonQp.Proofs.Staged.Formula
import HorizonQp.Proofs.Staged.Flatten

namespace HorizonQp.Flat

open Finset (range)

/-! ## Places of the bounded variables -/

section Places

variable {α : Type} {s : Stage α} {stages : List (Stage α)}

theorem bounded_front (hs : s.Shaped) {k : Nat} (hk : k < s.nb) :
    (bounded (s :: stages)).getD k 0 = s.idxb.getD k 0 := by
  rw [bounded, Linear.getD_append_ite, if_pos (by rwa [hs.idxb])]

theorem bounded_back (hs : s.Shaped) {k : Nat} (hk : k < (bounded stages).length) :
    (bounded (s :: stages)).getD (s.nb + k) 0 = s.nux + (bounded stages).getD k 0 := by
  rw [bounded, Linear.getD_append_ite, hs.idxb, if_neg (Nat.not_lt.mpr (Nat.le_add_right ..)),
    Nat.add_sub_cancel_left, Linear.getD_map_lt _ 0 0 hk]

theorem idxb_lt (hs : s.Shaped) (hi : ∀ k ∈ s.idxb, k < s.nux) {k : Nat} (hk : k < s.nb) :
    s.idxb.getD k 0 < s.nux := Linear.getD_lt hi (by rwa [hs.idxb])

end Places

/-! ## Block diagonals -/

variable {K : Type} [ExactField K] {s : Stage K} {stages : List (Stage K)}

section Diagonal

variable {rows cols : Stage K → Nat} {entry : Stage K → Nat → Nat → K}

theorem blocks_front {i : Nat} (hi : i < rows s) (j : Nat) :
    blocks rows cols entry (s :: stages) i j = if j < cols s then entry s i j else 0 := by
  rw [blocks, if_pos hi]

theorem blocks_back_front (i : Nat) {j : Nat} (hj : j < cols s) :
    blocks rows cols entry (s :: stages) (rows s + i) j = 0 := by
  rw [blocks, if_neg (by omega), if_pos hj]

theorem blocks_back (i j : Nat) :
    blocks rows cols entry (s :: stages) (rows s + i) (cols s + j) = blocks rows cols entry stages i j := by
  rw [blocks, if_neg (by omega), if_neg (by omega), Nat.add_sub_cancel_left, Nat.add_sub_cancel_left]

theorem blocks_transposed (i j : Nat) :
    blocks rows cols entry stages i j = blocks cols rows (fun s i j => entry s j i) stages j i := by
  induction stages generalizing i j with
  | nil => rfl
  | cons s stages ih =>
    simp only [blocks, ih]
    split <;> split <;> rfl

/-- Reflecting a block diagonal matrix reflects its blocks. -/
theorem blocks_reflected (i j : Nat) :
    (if j ≤ i then blocks rows rows entry stages i j else blocks rows rows entry stages j i) =
      blocks rows rows (fun s i j => if j ≤ i then entry s i j else entry s j i) stages i j := by
  induction stages generalizing i j with
  | nil => exact ite_self _
  | cons s stages ih =>
    by_cases hi : i < rows s
    · by_cases hj : j < rows s
      · simp only [blocks, hi, hj, if_true]
      · simp only [blocks, hi, hj, if_true, if_false, ite_self]
    · by_cases hj : j < rows s
      · simp only [blocks, hi, hj, if_true, if_false, ite_self]
      · have hle : j - rows s ≤ i - rows s ↔ j ≤ i := by omega
        simp only [blocks, hi, hj, if_false, ← ih, hle]

theorem sum_blocks_front {i : Nat} (hi : i < rows s) (n : Nat) (x : Nat → K) :
    ∑ j ∈ range (cols s + n), blocks rows cols entry (s :: stages) i j * x j =
      ∑ j ∈ range (cols s), entry s i j * x j := by
  rw [Finset.sum_range_add, Finset.sum_eq_zero (s := range n), add_zero]
  · refine Finset.sum_congr rfl fun j hj => ?_
    rw [blocks_front hi, if_pos (Finset.mem_range.mp hj)]
  · intro j _
    rw [blocks_front hi, if_neg (by omega), zero_mul]

theorem sum_blocks_back (i n : Nat) (x : Nat → K) :
    ∑ j ∈ range (cols s + n), blocks rows cols entry (s :: stages) (rows s + i) j * x j =
      ∑ j ∈ range n, blocks rows cols entry stages i j * x (cols s + j) := by
  rw [Finset.sum_range_add, Finset.sum_eq_zero (s := range (cols s)), zero_add]
  · simp only [blocks_back]
  · intro j hj
    rw [blocks_back_front i (Finset.mem_range.mp hj), zero_mul]

theorem sum_rows_front {j : Nat} (hj : j < cols s) (n : Nat) (x : Nat → K) :
    ∑ i ∈ range (rows s + n), blocks rows cols entry (s :: stages) i j * x i =
      ∑ i ∈ range (rows s), entry s i j * x i := by
  have hflip (i : Nat) : blocks rows cols entry (s :: stages) i j =
      blocks cols rows (fun s i j => entry s j i) (s :: stages) j i := blocks_transposed i j
  simp only [hflip]
  exact sum_blocks_front hj n x

theorem sum_rows_back (j n : Nat) (x : Nat → K) :
    ∑ i ∈ range (rows s + n), blocks rows cols entry (s :: stages) i (cols s + j) * x i =
      ∑ i ∈ range n, blocks rows cols entry stages i j * x (rows s + i) := by
  have hflip (stages : List (Stage K)) (i j : Nat) : blocks rows cols entry stages i j =
      blocks cols rows (fun s i j => entry s j i) stages j i := blocks_transposed i j
  simp only [hflip]
  exact sum_blocks_back j n x

end Diagonal

/-! ## Bounded variables -/

section Bounded

theorem sum_bounded_front (hs : s.Shaped) {i : Nat} (hi : i < s.nux) {m : Nat} (hm : (bounded stages).length = m)
    (y : Nat → K) :
    (∑ k ∈ range (s.nb + m), if (bounded (s :: stages)).getD k 0 = i then y k else 0) =
      ∑ k ∈ range s.nb, if s.idxb.getD k 0 = i then y k else 0 := by
  rw [Finset.sum_range_add, Finset.sum_eq_zero (s := range m), add_zero]
  · refine Finset.sum_congr rfl fun k hk => ?_
    rw [bounded_front hs (Finset.mem_range.mp hk)]
  · intro k hk
    have hk : k < (bounded stages).length := by rw [hm]; exact Finset.mem_range.mp hk
    have hne : ¬s.nux + (bounded stages).getD k 0 = i := by omega
    rw [bounded_back hs hk, if_neg hne]

theorem sum_bounded_back (hs : s.Shaped) (hi : ∀ k ∈ s.idxb, k < s.nux) (i : Nat) {m : Nat}
    (hm : (bounded stages).length = m) (y : Nat → K) :
    (∑ k ∈ range (s.nb + m), if (bounded (s :: stages)).getD k 0 = s.nux + i then y k else 0) =
      ∑ k ∈ range m, if (bounded stages).getD k 0 = i then y (s.nb + k) else 0 := by
  rw [Finset.sum_range_add, Finset.sum_eq_zero (s := range s.nb), zero_add]
  · refine Finset.sum_congr rfl fun k hk => ?_
    rw [bounded_back hs (by rw [hm]; exact Finset.mem_range.mp hk)]
    simp only [Nat.add_left_cancel_iff]
  · intro k hk
    have hk := Finset.mem_range.mp hk
    have hlt := idxb_lt hs hi hk
    have hne : ¬s.idxb.getD k 0 = s.nux + i := by omega
    rw [bounded_front hs hk, if_neg hne]

end Bounded

/-! ## Equations of the steps -/

section Dynamics

theorem dynamics_back_front (r : Nat) {j : Nat} (hj : j < s.nux) : dynamics (s :: stages) (s.ne + r) j = 0 := by
  cases hst : s.step with
  | none => simp only [dynamics, hst, if_pos hj]
  | some step =>
    have hr : ¬s.ne + r < step.b.length := by simp only [Stage.ne, hst]; omega
    simp only [dynamics, hst, if_neg hr, if_pos hj]

theorem dynamics_back (r j : Nat) : dynamics (s :: stages) (s.ne + r) (s.nux + j) = dynamics stages r j := by
  have hj : ¬s.nux + j < s.nux := by omega
  cases hst : s.step with
  | none => simp only [dynamics, hst, if_neg hj, Stage.ne, Nat.zero_add, Nat.add_sub_cancel_left]
  | some step =>
    have hne : s.ne = step.b.length := by simp only [Stage.ne, hst]
    have hr : ¬step.b.length + r < step.b.length := by omega
    simp only [dynamics, hst, hne, if_neg hr, if_neg hj, Nat.add_sub_cancel_left]

variable {step : Step K} (hst : s.step = some step)
include hst

theorem dynamics_front {r j : Nat} (hr : r < step.b.length) (hj : j < s.nux) :
    dynamics (s :: stages) r j = -step.BAbt.entry j r := by
  simp only [dynamics, hst, if_pos hr, if_pos hj]

theorem dynamics_front_back {r : Nat} (hr : r < step.b.length) (j : Nat) :
    dynamics (s :: stages) r (s.nux + j) = if j = step.nu + r then (1 : K) else 0 := by
  have hj : ¬s.nux + j < s.nux := by omega
  simp only [dynamics, hst, if_pos hr, if_neg hj, Nat.add_left_cancel_iff]

/-- A row of the step that leaves the first stage: its state in the next stage, less what the
    matrix of the step makes of the first. -/
theorem sum_dynamics_front {r : Nat} (hr : r < step.b.length) {n : Nat} (hn : step.nu + r < n) (x : Nat → K) :
    ∑ j ∈ range (s.nux + n), dynamics (s :: stages) r j * x j =
      x (s.nux + (step.nu + r)) - ∑ j ∈ range s.nux, step.BAbt.entry j r * x j := by
  have hfront : ∑ j ∈ range s.nux, dynamics (s :: stages) r j * x j =
      -∑ j ∈ range s.nux, step.BAbt.entry j r * x j := by
    rw [← Finset.sum_neg_distrib]
    refine Finset.sum_congr rfl fun j hj => ?_
    rw [dynamics_front hst hr (Finset.mem_range.mp hj), neg_mul]
  have hback : ∑ j ∈ range n, dynamics (s :: stages) r (s.nux + j) * x (s.nux + j) = x (s.nux + (step.nu + r)) := by
    rw [Finset.sum_eq_single (step.nu + r)]
    · rw [dynamics_front_back hst hr, if_pos rfl, one_mul]
    · intro j _ hne
      rw [dynamics_front_back hst hr, if_neg hne, zero_mul]
    · intro hmem
      exact absurd (Finset.mem_range.mpr hn) hmem
  rw [Finset.sum_range_add, hfront, hback]
  ring

omit hst

theorem sum_dynamics_back (r n : Nat) (x : Nat → K) :
    ∑ j ∈ range (s.nux + n), dynamics (s :: stages) (s.ne + r) j * x j =
      ∑ j ∈ range n, dynamics stages r j * x (s.nux + j) := by
  rw [Finset.sum_range_add, Finset.sum_eq_zero (s := range s.nux), zero_add]
  · simp only [dynamics_back]
  · intro j hj
    rw [dynamics_back_front r (Finset.mem_range.mp hj), zero_mul]

/-- A column of the first stage meets the rows of the step that leaves it. -/
theorem sum_dynamics_rows_front {i : Nat} (hi : i < s.nux) (n : Nat) (pi : List K) :
    ∑ r ∈ range (s.ne + n), dynamics (s :: stages) r i * pi.getD r 0 = -s.leaving (pi.take s.ne) i := by
  rw [Finset.sum_range_add, Finset.sum_eq_zero (s := range n), add_zero]
  · cases hst : s.step with
    | none => simp only [Stage.ne, Stage.leaving, hst, Finset.sum_range_zero, neg_zero]
    | some step =>
      have hne : s.ne = step.b.length := by simp only [Stage.ne, hst]
      simp only [Stage.leaving, hst, hne]
      rw [← Finset.sum_neg_distrib]
      refine Finset.sum_congr rfl fun r hr => ?_
      have hr := Finset.mem_range.mp hr
      rw [dynamics_front hst hr hi, Linear.getD_take _ _ hr, neg_mul]
  · intro r _
    rw [dynamics_back_front r hi, zero_mul]

/-- A column behind the first stage meets the step into its stage and the step that leaves
    it. -/
theorem sum_dynamics_rows_back (i n : Nat) {pi : List K} (hpi : s.ne ≤ pi.length) :
    ∑ r ∈ range (s.ne + n), dynamics (s :: stages) r (s.nux + i) * pi.getD r 0 =
      Stage.entered (s.step.elim 0 Step.nu) (some (pi.take s.ne)) i +
        ∑ r ∈ range n, dynamics stages r i * (pi.drop s.ne).getD r 0 := by
  rw [Finset.sum_range_add]
  congr 1
  · cases hst : s.step with
    | none =>
      simp only [Stage.ne, hst, Finset.sum_range_zero, Stage.entered, List.take_zero, List.getD_nil, ite_self]
    | some step =>
      have hne : s.ne = step.b.length := by simp only [Stage.ne, hst]
      have hlen : (pi.take s.ne).length = s.ne := List.length_take_of_le hpi
      show _ = if step.nu ≤ i then (pi.take s.ne).getD (i - step.nu) 0 else 0
      have hterm : ∀ r ∈ range s.ne, dynamics (s :: stages) r (s.nux + i) * pi.getD r 0 =
          if i = step.nu + r then pi.getD r 0 else 0 := by
        intro r hr
        rw [dynamics_front_back hst (hne ▸ Finset.mem_range.mp hr), ite_mul, one_mul, zero_mul]
      rw [Finset.sum_congr rfl hterm]
      by_cases hu : step.nu ≤ i
      · rw [if_pos hu]
        by_cases hr : i - step.nu < s.ne
        · rw [Finset.sum_eq_single (i - step.nu), if_pos (by omega), Linear.getD_take _ _ hr]
          · intro r _ hne'
            exact if_neg (by omega)
          · intro hmem
            exact absurd (Finset.mem_range.mpr hr) hmem
        · rw [List.getD_eq_default _ _ (by omega)]
          refine Finset.sum_eq_zero fun r hr' => if_neg ?_
          have := Finset.mem_range.mp hr'
          omega
      · rw [if_neg hu]
        exact Finset.sum_eq_zero fun r _ => if_neg (by omega)
  · simp only [dynamics_back, Linear.getD_drop]

end Dynamics

end HorizonQp.Flat
