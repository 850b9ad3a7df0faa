/-
  HorizonQp.Proofs.Linear.Transposed — reading and adding through an index array.

  A gather replaces entry `j` by a multiple of the entry that `idx[j]` points to, and a
  scatter adds a multiple of entry `j` to that entry. Both go through the array from the
  front and look up each index as they come to it. With all indices inside the vector every
  step finds its entry (`inTurn_gatherSteps`, `inTurn_scatterSteps`), and what no index
  points to is never written (`scatterAdd_untouched`), whatever the arithmetic is.

  Over exact numbers an entry of the scatter receives the sum of all that points to it, a
  repeated index counting as often as it stands in the array, and the two are transposes of
  one another (`dot_gather`, `gather_scatter_transposed`).
-/

import Mathlib.Algebra.Field.Rat
import HorizonQp.Binary.Numbers
import HorizonQp.Proofs.Linear.Multiply

namespace HorizonQp.Linear

open Finset (range)

variable {α : Type}

/-! ## Step by step -/

section Steps

variable [Zero α] [Mul α] (a : α)

/-- Replaces entry `j` by a multiple of the one that its index points to, which must be there. -/
def gatherStep (z : List α) (idx : List Nat) (j : Nat) (w : List α) : Attempt Empty (List α) := do
  let i ← .require idx[j]?
  let zi ← .require z[i]?
  .require (modify? j (fun _ => a * zi) w)

def gatherSteps (z : List α) (idx : List Nat) : List (List α → Attempt Empty (List α)) :=
  (List.range idx.length).map (gatherStep a z idx)

theorem inTurn_gatherSteps {z w : List α} {idx : List Nat} (h : ∀ i ∈ idx, i < z.length) (hw : w.length = idx.length) :
    inTurn (gatherSteps a z idx) w = .ok (gather a z idx) := by
  have hall : gather a z idx = (List.range idx.length).map fun j => a * z.getD (idx.getD j 0) 0 :=
    eq_map_range 0 (length_gather ..) fun j hj => getD_map_lt _ 0 0 hj
  rw [hall, ← foldl_replace _ hw]
  refine inTurn_map (P := fun w' => w'.length = idx.length) (fun j hj w' hw' => ?_) hw
  have hj : j < idx.length := List.mem_range.mp hj
  have hi : idx.getD j 0 < z.length := getD_lt h hj
  constructor
  · rw [gatherStep, getElem?_eq_getD idx 0 hj, Attempt.require_some, Attempt.ok_bind, getElem?_eq_getD z 0 hi,
      Attempt.require_some, Attempt.ok_bind, modify?_eq_some (hw' ▸ hj), Attempt.require_some]
  · rw [List.length_modify, hw']

end Steps

section Steps

variable [Add α] [Mul α] (a : α)

/-- Adds a multiple of an entry to the one that its index points to, which must be there. -/
def scatterStep (entry : α × Nat) (y : List α) : Attempt Empty (List α) := .require (modify? entry.2 (· + a * entry.1) y)

def scatterSteps (x : List α) (idx : List Nat) : List (List α → Attempt Empty (List α)) := (x.zip idx).map (scatterStep a)

theorem inTurn_scatterSteps {y : List α} {idx : List Nat} (h : ∀ i ∈ idx, i < y.length) (x : List α) :
    inTurn (scatterSteps a x idx) y = .ok (scatterAdd a x idx y) := by
  refine inTurn_map (P := fun y' => y'.length = y.length) (fun entry hentry y' hy' => ?_) rfl
  have hi : entry.2 < y.length := h _ (List.of_mem_zip hentry).2
  constructor
  · rw [scatterStep, modify?_eq_some (hy' ▸ hi), Attempt.require_some]
  · rw [List.length_modify, hy']

/-- An entry that no index points to. -/
theorem scatterAdd_untouched (x : List α) {idx : List Nat} {k : Nat} (hk : k ∉ idx) (y : List α) :
    (scatterAdd a x idx y)[k]? = y[k]? := by
  have hne : ∀ entry ∈ x.zip idx, entry.2 ≠ k := fun entry hentry heq => hk (heq ▸ (List.of_mem_zip hentry).2)
  rw [scatterAdd]
  generalize x.zip idx = entries at hne
  induction entries generalizing y with
  | nil => rfl
  | cons entry entries ih =>
    rw [List.forall_mem_cons] at hne
    rw [List.foldl_cons, ih _ hne.2, List.getElem?_modify]
    simp only [if_neg hne.1, id_map']

end Steps

theorem gather_getElem? [Zero α] [Mul α] (a : α) {z : List α} {idx : List Nat} {j i : Nat} {zi : α} (hi : idx[j]? = some i)
    (hz : z[i]? = some zi) : (gather a z idx)[j]? = some (a * zi) := by
  rw [gather, List.getElem?_map, hi, Option.map_some, List.getD_eq_getElem?_getD, hz, Option.getD_some]

/-! ## Over exact numbers -/

section Exact

variable {K : Type} [ExactField K] (a : K)

/-- An entry of a scatter receives the sum of the entries whose index points to it. -/
theorem scatterAdd_sum {x y : List K} {idx : List Nat} (hx : x.length = idx.length) {k : Nat} (hk : k < y.length) :
    (scatterAdd a x idx y).getD k 0 =
      y.getD k 0 + a * ∑ j ∈ (range idx.length).filter fun j => idx.getD j 0 = k, x.getD j 0 := by
  rw [scatterAdd_entry a hx hk, Finset.sum_filter, Finset.mul_sum]
  congr 1
  refine Finset.sum_congr rfl fun j _ => ?_
  rw [mul_ite, mul_zero]

theorem dot_gather {x z : List K} {idx : List Nat} (h : ∀ i ∈ idx, i < z.length) (hx : x.length = idx.length) :
    dot x (gather a z idx) = dot z (scatterAdd a x idx (List.replicate z.length 0)) := by
  have hzero (i : Nat) : (List.replicate z.length (0 : K)).getD i 0 = 0 :=
    getD_eq_zero (fun _ hz => (List.mem_replicate.mp hz).2) i
  rw [dot_eq x _ (n := idx.length) (by rw [hx]; exact Nat.min_le_left ..),
    dot_eq z _ (n := z.length) (Nat.min_le_left ..)]
  calc ∑ j ∈ range idx.length, x.getD j 0 * (gather a z idx).getD j 0
      = ∑ j ∈ range idx.length, a * x.getD j 0 * z.getD (idx.getD j 0) 0 := by
        refine Finset.sum_congr rfl fun j hj => ?_
        rw [gather_entry a z (Finset.mem_range.mp hj)]
        ring
    _ = ∑ i ∈ range z.length, (∑ j ∈ range idx.length, if idx.getD j 0 = i then a * x.getD j 0 else 0) * z.getD i 0 :=
        (sum_scattered_mul (fun j hj => getD_lt h hj) (fun j => a * x.getD j 0) fun i => z.getD i 0).symm
    _ = ∑ i ∈ range z.length, z.getD i 0 * (scatterAdd a x idx (List.replicate z.length 0)).getD i 0 := by
        refine Finset.sum_congr rfl fun i hi => ?_
        rw [scatterAdd_entry a hx (by rw [List.length_replicate]; exact Finset.mem_range.mp hi), hzero, zero_add, mul_comm]

end Exact

/-! ## Together -/

/-- What reading and adding through `idx` does to vectors of `n` entries. -/
structure ThroughIndices (idx : List Nat) (n : Nat) : Prop where
  /-- Every step of a gather finds its entries. -/
  gathers : ∀ {α : Type} [Zero α] [Mul α] (a : α) (z w : List α), z.length = n → w.length = idx.length →
    gather? w.length a z idx = some (gather a z idx) ∧ inPlace (gatherSteps a z idx) w = (gather a z idx, .ok ())
  gathered : ∀ {α : Type} [Zero α] [Mul α] (a : α) (z : List α), z.length = n → ∀ j (hj : j < idx.length),
    ∃ zi, z[idx[j]]? = some zi ∧ (gather a z idx)[j]? = some (a * zi)
  /-- Every step of a scatter finds its entry. -/
  scatters : ∀ {α : Type} [Add α] [Mul α] (a : α) (x y : List α), x.length = idx.length → y.length = n →
    scatterAdd? a x idx y = some (scatterAdd a x idx y) ∧
      inPlace (scatterSteps a x idx) y = (scatterAdd a x idx y, .ok ()) ∧ (scatterAdd a x idx y).length = n
  /-- What no index points to stays as it was, to the bit. -/
  untouched : ∀ {α : Type} [Add α] [Mul α] (a : α) (x y : List α), ∀ k ∉ idx, (scatterAdd a x idx y)[k]? = y[k]?
  /-- Over exact numbers, an entry receives all that points to it. -/
  accumulates : ∀ {K : Type} [ExactField K] (a : K) (x y : List K), x.length = idx.length → y.length = n → ∀ k < n,
    (scatterAdd a x idx y).getD k 0 =
      y.getD k 0 + a * ∑ j ∈ (range idx.length).filter fun j => idx.getD j 0 = k, x.getD j 0
  /-- Over exact numbers, the gather is the transpose of the scatter. -/
  transposed : ∀ {K : Type} [ExactField K] (a : K) (x z : List K), x.length = idx.length → z.length = n →
    ∃ s, dot? x (gather a z idx) = some s ∧ dot? z (scatterAdd a x idx (List.replicate n 0)) = some s

/-- Reading and adding through an index array are transposes, whatever the order of the
    indices in it and however often they stand there. -/
theorem gather_scatter_transposed {idx : List Nat} {n : Nat} (h : ∀ i ∈ idx, i < n) : ThroughIndices idx n where
  gathers a z w hz hw := by
    subst hz
    refine ⟨if_pos ⟨hw, ?_⟩, inPlace_of_ok (inTurn_gatherSteps a h hw)⟩
    simpa using h
  gathered a z hz j hj := by
    subst hz
    have hi : idx[j] < z.length := h _ (List.getElem_mem hj)
    exact ⟨_, List.getElem?_eq_getElem hi, gather_getElem? a (List.getElem?_eq_getElem hj) (List.getElem?_eq_getElem hi)⟩
  scatters a x y hx hy := by
    subst hy
    refine ⟨if_pos ⟨hx, ?_⟩, inPlace_of_ok (inTurn_scatterSteps a h x), length_scatterAdd ..⟩
    simpa using h
  untouched a x y k hk := scatterAdd_untouched a x hk y
  accumulates a x y hx hy k hk := scatterAdd_sum a hx (hy ▸ hk)
  transposed a x z hx hz := by
    subst hz
    refine ⟨dot x (gather a z idx), if_pos ?_, ?_⟩
    · rw [length_gather, hx]
    · rw [dot?, if_pos, dot_gather a h hx]
      rw [length_scatterAdd, List.length_replicate]

/-- Two entries point to the last place, one to the first and none to that in the middle,
    where a value stands that is no number. -/
theorem gather_scatter_transposed_repeated :
    let idx : List Nat := [2, 0, 2]
    let y : List Binary.Double := [0, FloatingPoint.nan, 0]
    (∀ i ∈ idx, i < 3) ∧ (scatterAdd 1 [1, 1, 1] idx y)[1]? = some FloatingPoint.nan ∧
      (scatterAdd 2 [1, 2, 3] idx ([10, 20, 30] : List ℚ)).getD 2 0 = 38 ∧
      dot? [1, 2, 3] (gather 2 ([5, 6, 7] : List ℚ) idx) = some 76 ∧
      dot? [5, 6, 7] (scatterAdd 2 [1, 2, 3] idx [0, 0, 0]) = some (76 : ℚ) := by
  intro idx y
  have hidx : ∀ i ∈ idx, i < 3 := by decide
  have h : ThroughIndices idx 3 := gather_scatter_transposed hidx
  have hgather : dot? [1, 2, 3] (gather 2 ([5, 6, 7] : List ℚ) idx) = some 76 := by decide +kernel
  refine ⟨hidx, h.untouched 1 [1, 1, 1] y 1 (by decide), ?_, hgather, ?_⟩
  · exact (h.accumulates (2 : ℚ) [1, 2, 3] [10, 20, 30] rfl rfl 2 (by decide)).trans (by decide +kernel)
  · obtain ⟨s, hs, hs'⟩ := h.transposed (2 : ℚ) [1, 2, 3] [5, 6, 7] rfl rfl
    rw [hgather] at hs
    exact hs'.trans hs.symm

end HorizonQp.Linear
