/-
  HorizonQp.Proofs.Exact.Kernels — the vector and matrix operations, over exact numbers.

  Each operation is given by the entries of its result: the entry at `i` of `a V x + b y` is
  `a * ∑ j, V i j * x j + b * y i` whatever the order in which the kernel adds the terms up
  (`product_entry`, `transposedProduct_entry`, `symmetricProduct_entry`). A gather reads
  through the index array, and a scatter adds to a place all the entries whose index is that
  place, so a repeated index counts as often as it stands there (`scatterAdd_entry`).
-/

import HorizonQp.Proofs.Exact.Sums
import HorizonQp.Proofs.Linear.Lengths

namespace HorizonQp.Linear

open Finset (range)

variable {K : Type} [ExactField K]

/-! ## Elementwise -/

theorem axpby_entry (a : K) {x : List K} (b : K) {y : List K} (h : x.length = y.length) (i : Nat) :
    (axpby a x b y).getD i 0 = a * x.getD i 0 + b * y.getD i 0 := by
  by_cases hi : i < x.length
  · exact getD_zipWith _ 0 0 0 hi (h ▸ hi)
  · rw [List.getD_eq_default _ _ (by rw [length_axpby h]; omega), List.getD_eq_default x _ (by omega),
      List.getD_eq_default y _ (by omega), mul_zero, mul_zero, add_zero]

theorem mul_entry {x y : List K} (h : x.length = y.length) (i : Nat) :
    (mul x y).getD i 0 = x.getD i 0 * y.getD i 0 := by
  by_cases hi : i < x.length
  · exact getD_zipWith _ 0 0 0 hi (h ▸ hi)
  · rw [List.getD_eq_default _ _ (by rw [length_mul h]; omega), List.getD_eq_default x _ (by omega), zero_mul]

theorem plus_entry {x y : List K} (h : x.length = y.length) (i : Nat) :
    (List.zipWith (· + ·) x y).getD i 0 = x.getD i 0 + y.getD i 0 := by
  by_cases hi : i < x.length
  · exact getD_zipWith _ 0 0 0 hi (h ▸ hi)
  · rw [List.getD_eq_default _ _ (by rw [List.length_zipWith]; omega), List.getD_eq_default x _ (by omega),
      List.getD_eq_default y _ (by omega), add_zero]

theorem minus_entry {x y : List K} (h : x.length = y.length) (i : Nat) :
    (List.zipWith (· - ·) x y).getD i 0 = x.getD i 0 - y.getD i 0 := by
  by_cases hi : i < x.length
  · exact getD_zipWith _ 0 0 0 hi (h ▸ hi)
  · rw [List.getD_eq_default _ _ (by rw [List.length_zipWith]; omega), List.getD_eq_default x _ (by omega),
      List.getD_eq_default y _ (by omega), sub_zero]

/-- The product of a vector with the difference of two others. -/
theorem dot_minus {w x y : List K} {n : Nat} (hw : w.length = n) (hx : x.length = n) (hy : y.length = n) :
    dot w (List.zipWith (· - ·) x y) = ∑ i ∈ range n, w.getD i 0 * (x.getD i 0 - y.getD i 0) := by
  rw [dot_eq w _ (n := n) (by rw [hw]; exact Nat.min_le_left ..)]
  simp only [minus_entry (hx.trans hy.symm)]

theorem dot_minus_append {w x y : List K} {n : Nat} (hw : w.length = n) (hx : x.length = n) (hy : y.length = n)
    (w' x' y' : List K) :
    dot (w ++ w') (List.zipWith (· - ·) (x ++ x') (y ++ y')) =
      dot w (List.zipWith (· - ·) x y) + dot w' (List.zipWith (· - ·) x' y') := by
  rw [List.zipWith_append (hx.trans hy.symm), dot_append (by rw [List.length_zipWith, hx, hy, hw, Nat.min_self])]

/-! ## Through an index array -/

theorem gather_entry (a : K) (x : List K) {idx : List Nat} {k : Nat} (hk : k < idx.length) :
    (gather a x idx).getD k 0 = a * x.getD (idx.getD k 0) 0 :=
  getD_map_lt _ 0 0 hk

theorem getD_modify (f : K → K) (y : List K) {i j : Nat} (hi : i < y.length) :
    (y.modify j f).getD i 0 = if j = i then f (y.getD i 0) else y.getD i 0 := by
  rw [List.getD_eq_getElem _ _ (by rwa [List.length_modify]), List.getElem_modify, List.getD_eq_getElem _ _ hi]

theorem scatterAdd_entry (a : K) {x : List K} {idx : List Nat} {y : List K} {i : Nat} (h : x.length = idx.length)
    (hi : i < y.length) :
    (scatterAdd a x idx y).getD i 0 =
      y.getD i 0 + ∑ k ∈ range idx.length, if idx.getD k 0 = i then a * x.getD k 0 else 0 := by
  induction idx generalizing x y with
  | nil => rw [scatterAdd, List.zip_nil_right, List.foldl_nil, List.length_nil, Finset.sum_range_zero, add_zero]
  | cons j idx ih =>
    obtain ⟨x₀, x, rfl⟩ := List.exists_cons_of_length_eq_add_one h
    -- the first index adds to its place, the others to what is there then
    have hrest := ih (x := x) (y := y.modify j (· + a * x₀)) (by simpa using h) (by rwa [List.length_modify])
    show (scatterAdd a x idx (y.modify j (· + a * x₀))).getD i 0 = _
    rw [hrest, getD_modify _ _ hi, List.length_cons, Finset.sum_range_succ']
    simp only [List.getD_cons_succ, List.getD_cons_zero]
    split <;> ring

/-! ## Matrix times vector -/

section Scaled

variable [DecidableEq K]

theorem isZero_iff {b : K} : Scalar.isZero b = true ↔ b = 0 := decide_eq_true_iff

theorem scaled_entry (b : K) {y : List K} {i : Nat} (hi : i < y.length) :
    (scaled b y).getD i 0 = b * y.getD i 0 := by
  unfold scaled
  split
  case isTrue hb => rw [getD_map_lt _ 0 0 hi, isZero_iff.mp hb, zero_mul]
  case isFalse => rw [scale, getD_map_lt _ 0 0 hi, mul_comm]

theorem plusScaled_eq (p b y : K) : plusScaled p b y = p + b * y := by
  unfold plusScaled
  split
  case isTrue hb => rw [isZero_iff.mp hb, zero_mul, add_zero]
  case isFalse => rfl

end Scaled

namespace Matrix

section Columns

variable {α : Type} [Zero α]

/-- An entry of a column is the entry of the matrix, and a column has nothing past the rows. -/
theorem col_entry (A : Matrix α) (i j : Nat) : (A.col j).getD i 0 = if i < A.rows then A.entry i j else 0 := by
  unfold col
  split
  case isTrue hi => rw [getD_take _ _ hi, getD_drop, entry, index, Nat.mul_comm j, Nat.add_comm]
  case isFalse hi => exact List.getD_eq_default _ _ (by rw [List.length_take]; omega)

omit [Zero α]

theorem columns_entry (A : Matrix α) {j : Nat} (hj : j < A.cols) : A.columns.getD j [] = A.col j := by
  have hr : j < (List.range A.cols).length := by rwa [List.length_range]
  rw [columns, getD_map_lt A.col 0 [] hr, List.getD_eq_getElem _ _ hr, List.getElem_range]

theorem columns_zip {A : Matrix α} {x : List α} (a : α) (h : A.cols = x.length) :
    A.columns.zip x = (List.range A.cols).map fun j => (A.col j, x.getD j a) := by
  apply ext_getD ([], a)
  · rw [List.length_zip, List.length_map, length_columns, List.length_range, ← h, Nat.min_self]
  · intro j hj
    rw [List.length_zip, length_columns, ← h, Nat.min_self] at hj
    have hr : j < (List.range A.cols).length := by rwa [List.length_range]
    rw [List.zip, getD_zipWith _ [] a _ (by rwa [length_columns]) (h ▸ hj), columns_entry A hj,
      getD_map_lt _ 0 _ hr, List.getD_eq_getElem _ _ hr, List.getElem_range]

end Columns

/-! ### By columns -/

/-- Adding columns into a vector, none of them shorter than the vector. -/
theorem foldl_columns_entry (f : Nat → K) (col : Nat → List K) (js : List Nat) {y : List K}
    (hcol : ∀ j ∈ js, y.length ≤ (col j).length) {i : Nat} (hi : i < y.length) :
    (js.foldl (fun y j => List.zipWith (fun yi entry => yi + entry * f j) y (col j)) y).getD i 0 =
      y.getD i 0 + (js.map fun j => (col j).getD i 0 * f j).sum := by
  induction js generalizing y with
  | nil => exact (add_zero _).symm
  | cons j js ih =>
    have hj := hcol j List.mem_cons_self
    have hlen : (List.zipWith (fun yi entry => yi + entry * f j) y (col j)).length = y.length := by
      rw [List.length_zipWith, Nat.min_eq_left hj]
    rw [List.foldl_cons, ih (fun j' hj' => by rw [hlen]; exact hcol j' (List.mem_cons_of_mem _ hj')) (by rwa [hlen]),
      getD_zipWith _ 0 0 0 hi (by omega), List.map_cons, List.sum_cons]
    exact add_assoc ..

section Products

variable [DecidableEq K]

theorem product_entry {A : Matrix K} (hA : A.Filled) (a : K) {x : List K} (b : K) {y : List K}
    (hx : A.cols = x.length) (hy : y.length ≤ A.rows) {i : Nat} (hi : i < y.length) :
    (A.product a x b y).getD i 0 = a * ∑ j ∈ range A.cols, A.entry i j * x.getD j 0 + b * y.getD i 0 := by
  have hcol : ∀ j ∈ List.range A.cols, (scaled b y).length ≤ (A.col j).length := fun j hj => by
    rwa [length_scaled, length_col hA (List.mem_range.mp hj)]
  rw [product, columns_zip 0 hx, List.foldl_map,
    foldl_columns_entry (fun j => a * x.getD j 0) A.col _ hcol (by rwa [length_scaled]), scaled_entry b hi,
    sum_map_range, Finset.mul_sum, add_comm]
  congr 1
  refine Finset.sum_congr rfl fun j _ => ?_
  rw [col_entry, if_pos (by omega)]
  ring

/-! ### By rows of the transpose -/

theorem transposedProduct_entry (A : Matrix K) (a : K) {x : List K} (b : K) {y : List K} (hx : x.length ≤ A.rows)
    {j : Nat} (hj : j < A.cols) (hy : j < y.length) :
    (A.transposedProduct a x b y).getD j 0 =
      a * ∑ i ∈ range x.length, A.entry i j * x.getD i 0 + b * y.getD j 0 := by
  rw [transposedProduct, getD_zipWith _ [] 0 0 (by rwa [length_columns]) hy, columns_entry A hj, plusScaled_eq,
    dot_eq _ _ (Nat.min_le_right _ _)]
  congr 2
  refine Finset.sum_congr rfl fun i hi => ?_
  have hi := Finset.mem_range.mp hi
  rw [getD_take _ _ hi, col_entry, if_pos (by omega)]

end Products

end Matrix

/-! ### From one triangle -/

namespace View

variable {α : Type} [Zero α] (A : Matrix α) {t : Triangle} {i j : Nat}

theorem symmetric_entry_self : (symmetric t).entry A i i = A.entry i i := by
  cases t <;> simp [entry, index, source, Matrix.entry]

theorem symmetric_entry_held (h : t.holds i j = true) : (symmetric t).entry A i j = A.entry i j := by
  cases t <;> simp only [Triangle.holds, decide_eq_true_eq] at h <;>
    simp only [entry, index, source, Matrix.entry, if_pos (Nat.le_of_lt h)]

theorem symmetric_entry_comm : (symmetric t).entry A i j = (symmetric t).entry A j i := by
  rcases Nat.lt_trichotomy i j with h | rfl | h
  · cases t <;> simp only [entry, index, source, if_pos (Nat.le_of_lt h), if_neg (Nat.not_le.mpr h)]
  · rfl
  · cases t <;> simp only [entry, index, source, if_pos (Nat.le_of_lt h), if_neg (Nat.not_le.mpr h)]

end View

namespace Triangle

variable (t : Triangle) {i j : Nat}

theorem holds_or_holds (h : i ≠ j) :
    t.holds i j = true ∧ t.holds j i = false ∨ t.holds i j = false ∧ t.holds j i = true := by
  cases t <;> simp only [holds, decide_eq_true_eq, decide_eq_false_iff_not] <;> omega

@[simp] theorem holds_self : t.holds i i = false := by
  cases t <;> simp [holds]

end Triangle

namespace Matrix

theorem sum_map_filter (p : Nat → Bool) (f : Nat → K) (js : List Nat) :
    ((js.filter p).map f).sum = (js.map fun j => if p j then f j else 0).sum := by
  induction js with
  | nil => rfl
  | cons j js ih =>
    rw [List.filter_cons, List.map_cons, List.sum_cons, ← ih]
    split
    · rw [List.map_cons, List.sum_cons]
    · rw [zero_add]

/-- Adding to every entry, once for each of a list of columns. -/
theorem foldl_mapIdx_entry (term : Nat → Nat → K) (js : List Nat) {y : List K} {i : Nat} (hi : i < y.length) :
    (js.foldl (fun y j => y.mapIdx fun i yi => yi + term j i) y).getD i 0 =
      y.getD i 0 + (js.map fun j => term j i).sum := by
  induction js generalizing y with
  | nil => exact (add_zero _).symm
  | cons j js ih =>
    rw [List.foldl_cons, ih (by rwa [List.length_mapIdx]), List.getD_eq_getElem _ _ (by rwa [List.length_mapIdx]),
      List.getElem_mapIdx,
      List.getD_eq_getElem _ _ hi, List.map_cons, List.sum_cons, add_assoc]

section Symmetric

variable [DecidableEq K]

theorem heldDot_eq (t : Triangle) (A : Matrix K) {c : Nat} {x : List K} (hx : x.length ≤ A.rows) :
    heldDot t c (A.col c) x = ∑ r ∈ range x.length, if t.holds r c then A.entry r c * x.getD r 0 else 0 := by
  rw [heldDot, foldl_add, zero_add, sum_map_filter, sum_map_range]
  refine Finset.sum_congr rfl fun r hr => ?_
  rw [col_entry, if_pos (Nat.lt_of_lt_of_le (Finset.mem_range.mp hr) hx)]

/-- What column `c` adds to row `r`: a held entry its own product, and the diagonal also the
    products of the reflected entries. -/
def columnTerm (A : Matrix K) (t : Triangle) (a : K) (x : List K) (c r : Nat) : K :=
  (if t.holds r c then (A.col c).getD r 0 * (a * x.getD c 0) else 0) +
    if r = c then (A.col c).getD c 0 * (a * x.getD c 0) + a * heldDot t c (A.col c) x else 0

theorem symmetricProduct_eq (A : Matrix K) (t : Triangle) (a : K) (x : List K) (b : K) (y : List K) :
    A.symmetricProduct t a x b y =
      (List.range A.cols).foldl (fun y c => y.mapIdx fun r yi => yi + A.columnTerm t a x c r) (scaled b y) := by
  rw [symmetricProduct]
  congr 1
  funext y c
  show y.mapIdx _ = y.mapIdx _
  congr 1
  funext r yi
  unfold columnTerm
  by_cases hh : t.holds r c = true
  · have hne : r ≠ c := fun h => by rw [h, Triangle.holds_self] at hh; cases hh
    rw [if_pos hh, if_pos hh, if_neg hne, add_zero]
  · rw [if_neg hh, if_neg hh, zero_add]
    split
    · rfl
    · rw [add_zero]

/-- What all columns add to row `r`: each entry of the row as the symmetric matrix has it,
    once. -/
theorem sum_columnTerm (A : Matrix K) (t : Triangle) (a : K) {x : List K} (hx : x.length = A.cols)
    (hr : A.cols ≤ A.rows) {r : Nat} (h : r < A.cols) :
    ∑ c ∈ range A.cols, A.columnTerm t a x c r =
      a * ∑ c ∈ range A.cols, (View.symmetric t).entry A r c * x.getD c 0 := by
  have hrow : r < A.rows := Nat.lt_of_lt_of_le h hr
  -- an entry of the row is held, on the diagonal, or reflected
  have hterm : ∀ c, a * ((View.symmetric t).entry A r c * x.getD c 0) =
      (if t.holds r c then A.entry r c * (a * x.getD c 0) else 0) +
        ((if r = c then A.entry c c * (a * x.getD c 0) else 0) +
          a * if t.holds c r then A.entry c r * x.getD c 0 else 0) := by
    intro c
    by_cases hc : r = c
    · subst hc
      simp only [View.symmetric_entry_self, Triangle.holds_self, Bool.false_eq_true, if_false, if_true]
      ring
    · rw [if_neg hc]
      rcases Triangle.holds_or_holds t hc with ⟨h₁, h₂⟩ | ⟨h₁, h₂⟩
      · simp only [View.symmetric_entry_held A h₁, h₁, h₂, Bool.false_eq_true, if_false, if_true]
        ring
      · rw [View.symmetric_entry_comm, View.symmetric_entry_held A h₂]
        simp only [h₁, h₂, Bool.false_eq_true, if_false, if_true]
        ring
  simp only [columnTerm, Finset.mul_sum, hterm, Finset.sum_add_distrib, Finset.sum_ite_eq, Finset.mem_range, if_pos h,
    col_entry, if_pos hrow]
  rw [heldDot_eq t A (by omega), hx, Finset.mul_sum]

theorem symmetricProduct_entry (A : Matrix K) (t : Triangle) (a : K) {x : List K} (b : K) {y : List K}
    (hx : x.length = A.cols) (hr : A.cols ≤ A.rows) {i : Nat} (hi : i < y.length) (hc : i < A.cols) :
    (A.symmetricProduct t a x b y).getD i 0 =
      a * ∑ j ∈ range A.cols, (View.symmetric t).entry A i j * x.getD j 0 + b * y.getD i 0 := by
  rw [symmetricProduct_eq, foldl_mapIdx_entry _ _ (by rwa [length_scaled]), scaled_entry b hi, sum_map_range,
    sum_columnTerm A t a hx hr hc, add_comm]

end Symmetric

end Matrix

end HorizonQp.Linear
