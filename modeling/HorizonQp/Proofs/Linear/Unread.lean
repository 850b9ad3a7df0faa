/-
  HorizonQp.Proofs.Linear.Unread — what a product does not read.

  The symmetric product of a triangle leaves the same in `y` for any matrices that agree on
  that triangle of their leading square block. The products with the leading rows leave
  what the full products do with a matrix of these rows alone (`Matrix.BeginsWith`). And a
  `y` whose factor is taken for zero may have held anything. No law of the arithmetic is
  used, so all of this is to the bit, and with values that are no numbers in the unread
  places (`Matrix.unread`).
-/

import HorizonQp.Binary.Numbers
import HorizonQp.Proofs.Linear.Multiply
import HorizonQp.Proofs.Linear.Reads

namespace HorizonQp.Linear

variable {α : Type} [Scalar α] {A B F : Matrix α}

namespace Matrix

/-- The leading square blocks of `A` and `B` have the same triangle. -/
structure AgreeOn (t : Triangle) (A B : Matrix α) : Prop where
  cols : A.cols = B.cols
  rows : A.cols ≤ A.rows
  rows' : A.cols ≤ B.rows
  entry : ∀ i < A.cols, ∀ j < A.cols, i = j ∨ t.holds i j = true → A.entry i j = B.entry i j

/-- The first rows of `A` are those of `F`. -/
structure BeginsWith (A F : Matrix α) : Prop where
  rows : F.rows ≤ A.rows
  cols : A.cols = F.cols
  entry : ∀ i < F.rows, ∀ j < A.cols, A.entry i j = F.entry i j

/-- The matrix of the first `k` rows. -/
def firstRows (A : Matrix α) (k : Nat) : Matrix α := ofFn k A.cols A.entry

theorem firstRows_begins {k : Nat} (hk : k ≤ A.rows) : A.BeginsWith (A.firstRows k) :=
  ⟨hk, rfl, fun _ hi _ hj => (ofFn_entry _ hi hj).symm⟩

theorem BeginsWith.leading (h : A.BeginsWith F) (hA : A.WellShaped) (hF : F.WellShaped) :
    A.leading F.rows = F.leading F.rows :=
  leading_congr hA hF h.cols h.rows (Nat.le_refl _) h.entry

end Matrix

namespace Multiply

variable {p q : Multiply} {a : α} {x : List α} {b : α} {y y' : List α}

/-- Products agree where they take the same operands and have the same results. -/
theorem times?_congr (htakes : p.Takes A x y ↔ q.Takes B x y')
    (htimes : p.Takes A x y → p.times A a x b y = q.times B a x b y') : p.times? A a x b y = q.times? B a x b y' := by
  rw [times?_eq, times?_eq]
  by_cases h : p.Takes A x y
  · rw [if_pos h, if_pos (htakes.mp h), htimes h]
  · rw [if_neg h, if_neg fun hq => h (htakes.mpr hq)]

omit [Scalar α] in
theorem takes_congr (h : y.length = y'.length) : p.Takes A x y ↔ p.Takes A x y' := by
  cases p <;> simp only [Takes, h]

/-- What a vector held whose factor is zero is not read. -/
theorem times_over (hb : Scalar.isZero b = true) (h : y.length = y'.length) :
    p.times A a x b y = p.times A a x b y' := by
  have hscaled := Matrix.scaled_over hb h
  cases p with
  | plain | leading =>
    show A.product a x b y = A.product a x b y'
    rw [Matrix.product, Matrix.product, hscaled]
  | transposed | leadingTransposed => exact Matrix.transposedProduct_over hb a x h
  | symmetric t =>
    show A.symmetricProduct t a x b y = A.symmetricProduct t a x b y'
    rw [Matrix.symmetricProduct, Matrix.symmetricProduct, hscaled]

end Multiply

/-- What does not reach the results of the products. -/
structure Unread (A : Matrix α) (a : α) (x : List α) (b : α) (y : List α) : Prop where
  /-- The entries outside the triangle, and the rows below the square block. -/
  triangle : ∀ (t : Triangle) (B : Matrix α), A.AgreeOn t B →
    A.symmetricProduct? t a x b y = B.symmetricProduct? t a x b y
  /-- The rows for which `y` has no entry. -/
  leading : ∀ F : Matrix α, F.WellShaped → A.BeginsWith F → F.rows = y.length →
    A.leadingProduct? a x b y = F.product? a x b y
  /-- The rows for which `x` has no entry. -/
  leadingTransposed : ∀ F : Matrix α, F.WellShaped → A.BeginsWith F → F.rows = x.length →
    A.leadingTransposedProduct? a x b y = F.transposedProduct? a x b y
  /-- What `y` held, if its factor is taken for zero. -/
  overwritten : Scalar.isZero b = true → ∀ (p : Multiply) (y' : List α), y.length = y'.length →
    p.times? A a x b y = p.times? A a x b y'
  /-- The result is what the product leaves in `y`. -/
  whole : ∀ p : Multiply, p.leaves A a x b y = allOrNothing y (.require (p.times? A a x b y))

open Multiply in
/-- No product reads what its view does not show, whatever the arithmetic is. -/
theorem Matrix.unread (hA : A.WellShaped) (a : α) (x : List α) (b : α) (y : List α) : Unread A a x b y where
  triangle t B h := by
    refine times?_congr (p := .symmetric t) (q := .symmetric t) ?_ fun hx => ?_
    · have hr := h.rows
      have hr' := h.rows'
      simp only [Takes, ← h.cols]
      omega
    · exact symmetricProduct_congr rfl h.cols.symm h.rows h.rows' h.entry a hx.2.1.symm b hx.2.2.symm
  leading F hF h hy := by
    refine times?_congr (p := .leading) (q := .plain) ?_ fun _ =>
      product_congr a x b (Nat.le_of_eq hy.symm) (h.leading hA hF)
    have hr := h.rows
    simp only [Takes, h.cols]
    omega
  leadingTransposed F hF h hx := by
    refine times?_congr (p := .leadingTransposed) (q := .transposed) ?_ fun _ =>
      transposedProduct_congr a x b y (hx ▸ h.leading hA hF)
    have hr := h.rows
    simp only [Takes, h.cols]
    omega
  overwritten hb p y' hy := times?_congr (takes_congr hy) fun _ => times_over hb hy
  whole p := p.leaves_eq a x b y hA

/-- Values that are no numbers above the diagonal, in the last row, and where `y` is overwritten. -/
theorem Matrix.unread_nan :
    let nan : Binary.Double := FloatingPoint.nan
    let A : Matrix Binary.Double := .ofRows [[1, nan], [1, 1], [nan, nan]]
    let B : Matrix Binary.Double := .ofRows [[1, 0], [1, 1], [0, 0]]
    A.WellShaped ∧ A ≠ B ∧
      A.symmetricProduct? .lower 1 [1, 1] 0 [nan, 1] = B.symmetricProduct? .lower 1 [1, 1] 0 [0, 0] ∧
      A.leadingProduct? 1 [1, nan] 1 [1, 1] = (A.firstRows 2).product? 1 [1, nan] 1 [1, 1] ∧
      A.leadingTransposedProduct? 1 [1, 1] 1 [nan, 1] = (A.firstRows 2).transposedProduct? 1 [1, 1] 1 [nan, 1] := by
  intro nan A B
  have hA : A.WellShaped := rfl
  have hF : (A.firstRows 2).WellShaped := rfl
  have hbegins : A.BeginsWith (A.firstRows 2) := firstRows_begins (by decide)
  have hagree : A.AgreeOn .lower B := ⟨rfl, by decide, by decide, by decide⟩
  refine ⟨hA, by decide, ?_, ?_, ?_⟩
  · exact ((unread hA 1 [1, 1] 0 [nan, 1]).overwritten rfl (.symmetric .lower) [0, 0] rfl).trans
      ((unread hA 1 [1, 1] 0 [0, 0]).triangle .lower B hagree)
  · exact (unread hA 1 [1, nan] 1 [1, 1]).leading _ hF hbegins rfl
  · exact (unread hA 1 [1, 1] 1 [nan, 1]).leadingTransposed _ hF hbegins rfl

end HorizonQp.Linear
