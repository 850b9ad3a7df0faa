/-
  HorizonQp.Proofs.Exact.Views — a product is the product with what its view shows.

  Over exact numbers each of the five products leaves `a V x + b y`, where `V i j` is what
  the product's view shows at `(i, j)` (`Multiply.viewProduct`). A product with the leading
  rows has entries for these alone. With operands of other lengths than the shape asks for,
  `y` stays as it was (`leaves_viewProduct`).
-/

import Mathlib.Algebra.Field.Rat
import HorizonQp.Proofs.Linear.Multiply

namespace HorizonQp.Linear

open Finset (range)

theorem View.entry?_eq_some {α : Type} [Zero α] {A : Matrix α} (hA : A.WellShaped) {view : View} {i j : Nat}
    (hr : (view.source i j).1 < A.rows) (hc : (view.source i j).2 < A.cols) :
    view.entry? A i j = some (view.entry A i j) := by
  have hk : A.data[view.index A i j]? = some (view.entry A i j) := getElem?_eq_getD _ 0 (Matrix.index_lt hA hr hc)
  unfold entry?
  rw [hk, Option.some_or]

namespace Multiply

/-- What the view shows is an entry of the matrix. -/
theorem source_lt {α : Type} {p : Multiply} {A : Matrix α} {x y : List α} (h : p.Takes A x y) {i j : Nat}
    (hi : i < y.length) (hj : j < x.length) : (p.view.source i j).1 < A.rows ∧ (p.view.source i j).2 < A.cols := by
  cases p with
  | plain | leading =>
    obtain ⟨hx, hy⟩ := h.of_plain rfl
    exact ⟨Nat.lt_of_lt_of_le hi hy, hx ▸ hj⟩
  | transposed | leadingTransposed =>
    obtain ⟨hx, hy⟩ := h.of_transposed rfl
    exact ⟨Nat.lt_of_lt_of_le hj hx, hy ▸ hi⟩
  | symmetric t =>
    obtain ⟨hr, hx, hy⟩ := h
    have hi : i < A.cols := hy ▸ hi
    have hj : j < A.cols := hx ▸ hj
    cases t <;> simp only [view, View.source] <;> split <;> constructor <;> omega

variable {K : Type} [ExactField K] (p : Multiply) (A : Matrix K) (a : K) (x : List K) (b : K) (y : List K)

/-- The vector `a V x + b y` for the view `V` of the product. -/
def viewProduct : List K :=
  y.mapIdx fun i yi => a * ∑ j ∈ range x.length, p.view.entry A i j * x.getD j 0 + b * yi

variable {p A x y}

theorem viewProduct_entry {i : Nat} (hi : i < y.length) :
    (p.viewProduct A a x b y).getD i 0 = a * ∑ j ∈ range x.length, p.view.entry A i j * x.getD j 0 + b * y.getD i 0 := by
  rw [viewProduct, List.getD_eq_getElem?_getD, List.getElem?_mapIdx, List.getElem?_eq_getElem hi, Option.map_some,
    Option.getD_some, List.getD_eq_getElem y _ hi]

section Accepted

variable [DecidableEq K] (hA : A.WellShaped) (h : p.Takes A x y)
include hA h

theorem length_times : (p.times A a x b y).length = y.length := by
  cases p with
  | plain | leading => exact Matrix.length_product hA.filled a x b (h.of_plain rfl).2
  | transposed | leadingTransposed => exact Matrix.length_transposedProduct a x b (h.of_transposed rfl).2
  | symmetric t => exact Matrix.length_symmetricProduct ..

theorem times_entry {i : Nat} (hi : i < y.length) :
    (p.times A a x b y).getD i 0 = a * ∑ j ∈ range x.length, p.view.entry A i j * x.getD j 0 + b * y.getD i 0 := by
  cases p with
  | plain | leading =>
    obtain ⟨hx, hy⟩ := h.of_plain rfl
    exact hx ▸ Matrix.product_entry hA.filled a b hx hy hi
  | transposed | leadingTransposed =>
    obtain ⟨hx, hy⟩ := h.of_transposed rfl
    exact Matrix.transposedProduct_entry A a b hx (hy ▸ hi) hi
  | symmetric t =>
    obtain ⟨hr, hx, hy⟩ := h
    exact hx ▸ Matrix.symmetricProduct_entry A t a b hx.symm hr hi (hy ▸ hi)

theorem times_eq : p.times A a x b y = p.viewProduct A a x b y := by
  have hlen := length_times a b hA h
  apply ext_getD 0 (by rw [hlen, viewProduct, List.length_mapIdx])
  intro i hi
  rw [hlen] at hi
  rw [times_entry a b hA h hi, viewProduct_entry a b hi]

end Accepted

/-- A product with operands of the lengths that the shape of the matrix allows leaves the
    product with its view, every entry of which is there to be read, and with others it
    leaves `y` as it was. -/
theorem leaves_viewProduct [DecidableEq K] (hA : A.WellShaped) (p : Multiply) (a : K) (x : List K) (b : K) (y : List K) :
    p.times? A a x b y = (if p.Takes A x y then some (p.viewProduct A a x b y) else none) ∧
      p.leaves A a x b y = allOrNothing y (.require (p.times? A a x b y)) ∧
      (p.Takes A x y → ∀ i < y.length, ∀ j < x.length, p.view.entry? A i j = some (p.view.entry A i j)) := by
  refine ⟨?_, p.leaves_eq a x b y hA, fun h i hi j hj => ?_⟩
  · rw [times?_eq]
    split
    case isTrue h => rw [times_eq a b hA h]
    case isFalse => rfl
  · obtain ⟨hr, hc⟩ := source_lt h hi hj
    exact View.entry?_eq_some hA hr hc

/-- The lower triangle of a tall matrix, with other numbers above it and below the square block. -/
theorem leaves_viewProduct_tall :
    let A : Matrix ℚ := .ofRows [[1, 99, 99], [2, 3, 99], [4, 5, 6], [77, 77, 77]]
    A.WellShaped ∧ (symmetric .lower).leaves A 2 [1, -2, 3] 3 [-4, -1, 3] = ([6, 19, 33], .ok ()) ∧
      leadingTransposed.leaves A 2 [1, 1] 0 [1, 2] = ([1, 2], .error .breach) := by
  intro A
  have hA : A.WellShaped := rfl
  obtain ⟨htimes, hleaves, -⟩ := leaves_viewProduct hA (symmetric .lower) 2 [1, -2, 3] 3 [-4, -1, 3]
  obtain ⟨htimes', hleaves', -⟩ := leaves_viewProduct hA leadingTransposed 2 [1, 1] 0 [1, 2]
  have hview : viewProduct (symmetric .lower) A 2 [1, -2, 3] 3 [-4, -1, 3] = [6, 19, 33] := by decide +kernel
  refine ⟨hA, ?_, ?_⟩
  · rw [hleaves, htimes, if_pos (by decide), hview]
    rfl
  · rw [hleaves', htimes', if_neg (by decide)]
    rfl

end Multiply

end HorizonQp.Linear
