/-
  HorizonQp.Proofs.Linear.Lengths — how long the results of the kernels are.

  A kernel that computes `a V x + b y` answers with a vector as long as `y`, whatever the
  arithmetic does: lengths follow from the shapes alone.
-/

import HorizonQp.Linear.Product

namespace HorizonQp.Linear

variable {α : Type}

/-- A fold whose steps keep the length keeps it. -/
theorem length_foldl {ι : Type} (f : List α → ι → List α) (js : List ι) (y : List α)
    (hf : ∀ j ∈ js, ∀ y' : List α, y'.length = y.length → (f y' j).length = y.length) :
    (js.foldl f y).length = y.length := by
  suffices h : ∀ y' : List α, y'.length = y.length → (js.foldl f y').length = y.length from h y rfl
  induction js with
  | nil => exact fun _ h => h
  | cons j js ih =>
    intro y' hy
    exact ih (fun j' hj' => hf j' (List.mem_cons_of_mem _ hj')) _ (hf j List.mem_cons_self y' hy)

theorem length_axpby [Add α] [Mul α] {a b : α} {x y : List α} (h : x.length = y.length) :
    (axpby a x b y).length = y.length := by
  rw [axpby, List.length_zipWith, h, Nat.min_self]

theorem length_mul [Mul α] {x y : List α} (h : x.length = y.length) : (mul x y).length = y.length := by
  rw [mul, List.length_zipWith, h, Nat.min_self]

@[simp] theorem length_gather [Zero α] [Mul α] (a : α) (x : List α) (idx : List Nat) :
    (gather a x idx).length = idx.length :=
  List.length_map _

@[simp] theorem length_scatterAdd [Add α] [Mul α] (a : α) (x : List α) (idx : List Nat) (y : List α) :
    (scatterAdd a x idx y).length = y.length :=
  length_foldl _ _ _ fun _ _ _ h => by rw [List.length_modify, h]

namespace Matrix

theorem WellShaped.filled {A : Matrix α} (hA : A.WellShaped) : A.Filled := Nat.le_of_eq hA.symm

theorem filled?_eq {A : Matrix α} (hA : A.Filled) : A.filled? = some A := if_pos hA

theorem filled?_eq_some {A B : Matrix α} : A.filled? = some B ↔ A.Filled ∧ A = B := by
  rw [filled?, Option.ite_none_right_eq_some, Option.some_inj]

theorem length_col {A : Matrix α} (hA : A.Filled) {j : Nat} (hj : j < A.cols) : (A.col j).length = A.rows := by
  have hend : A.rows * (j + 1) ≤ A.data.length := Nat.le_trans (Nat.mul_le_mul_left A.rows hj) hA
  rw [Nat.mul_succ] at hend
  rw [col, List.length_take, List.length_drop, Nat.mul_comm j]
  omega

@[simp] theorem length_columns (A : Matrix α) : A.columns.length = A.cols := by
  rw [columns, List.length_map, List.length_range]

variable [Scalar α]

@[simp] theorem length_scaled (b : α) (y : List α) : (scaled b y).length = y.length := by
  unfold scaled
  split <;> simp only [scale, List.length_map]

theorem length_product {A : Matrix α} (hA : A.Filled) (a : α) (x : List α) (b : α) {y : List α}
    (hy : y.length ≤ A.rows) : (A.product a x b y).length = y.length := by
  rw [product, length_foldl, length_scaled]
  rintro ⟨column, xj⟩ hmem y' hy'
  obtain ⟨j, hj, rfl⟩ := List.mem_map.mp (List.of_mem_zip hmem).1
  rw [length_scaled] at hy' ⊢
  rw [List.length_zipWith, length_col hA (List.mem_range.mp hj), hy', Nat.min_eq_left hy]

theorem length_transposedProduct {A : Matrix α} (a : α) (x : List α) (b : α) {y : List α}
    (hy : A.cols = y.length) : (A.transposedProduct a x b y).length = y.length := by
  rw [transposedProduct, List.length_zipWith, length_columns, hy, Nat.min_self]

@[simp] theorem length_symmetricProduct (A : Matrix α) (t : Triangle) (a : α) (x : List α) (b : α) (y : List α) :
    (A.symmetricProduct t a x b y).length = y.length := by
  rw [symmetricProduct, length_foldl, length_scaled]
  intro c _ y' hy'
  rw [List.length_mapIdx, hy']

end Matrix

end HorizonQp.Linear
