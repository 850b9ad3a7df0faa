/-
  HorizonQp.Proofs.Linear.Reads — what a product reads of its matrix.

  A product with a matrix goes through its leading rows, as many as `y` is long
  (`product_eq_leading`), and one with its transpose through as many as `x` is long
  (`transposedProduct_eq_leading`). The symmetric product goes through the triangle that
  is held, of the leading block (`symmetricProduct_congr`). No law of the arithmetic is
  used: matrices that agree there have the same products to the bit, whatever the other
  entries are.

  A `y` whose factor is taken for zero is not read either (`scaled_over`,
  `transposedProduct_over`).
-/

import HorizonQp.Proofs.Exact.Kernels

namespace HorizonQp.Linear

variable {α : Type}

/-- Only as much of a vector is zipped as the other is long. -/
theorem zipWith_take {β γ : Type} (f : α → β → γ) {xs : List α} {n : Nat} (h : xs.length ≤ n) (ys : List β) :
    List.zipWith f xs (ys.take n) = List.zipWith f xs ys := by
  induction xs generalizing n ys with
  | nil => simp
  | cons x xs ih =>
    cases n with
    | zero => simp at h
    | succ n =>
      cases ys with
      | nil => simp
      | cons y ys =>
        simp only [List.take_succ_cons, List.zipWith_cons_cons, List.cons.injEq, true_and]
        exact ih (by simpa using h) ys

namespace Matrix

/-- The leading `n` rows, column by column. -/
def leading (A : Matrix α) (n : Nat) : List (List α) := A.columns.map (·.take n)

theorem leading_congr [Zero α] {A B : Matrix α} (hA : A.WellShaped) (hB : B.WellShaped) (hc : A.cols = B.cols) {n : Nat}
    (hn : n ≤ A.rows) (hn' : n ≤ B.rows) (h : ∀ i < n, ∀ j < A.cols, A.entry i j = B.entry i j) :
    A.leading n = B.leading n := by
  rw [leading, leading, columns, columns, List.map_map, List.map_map, ← hc]
  apply List.map_congr_left
  intro j hj
  have hj := List.mem_range.mp hj
  have hlen : ((A.col j).take n).length = n := by
    rw [List.length_take, length_col hA.filled hj, Nat.min_eq_left hn]
  have hlen' : ((B.col j).take n).length = n := by
    rw [List.length_take, length_col hB.filled (hc ▸ hj), Nat.min_eq_left hn']
  show (A.col j).take n = (B.col j).take n
  apply ext_getD 0 (hlen.trans hlen'.symm)
  intro i hi
  rw [hlen] at hi
  rw [getD_take _ _ hi, getD_take _ _ hi, col_entry, col_entry, if_pos (by omega), if_pos (by omega), h i hi j hj]

variable [Scalar α] {A B : Matrix α}

/-! ## Plain products -/

/-- Adding columns into a vector reads no more of each than the vector is long. -/
theorem foldl_take (a : α) {n : Nat} (pairs : List (List α × α)) {y : List α} (hy : y.length ≤ n) :
    (pairs.map (Prod.map (·.take n) id)).foldl
        (fun y (column, xj) => List.zipWith (fun yi entry => yi + entry * (a * xj)) y column) y =
      pairs.foldl (fun y (column, xj) => List.zipWith (fun yi entry => yi + entry * (a * xj)) y column) y := by
  induction pairs generalizing y with
  | nil => rfl
  | cons pair pairs ih =>
    obtain ⟨column, xj⟩ := pair
    simp only [List.map_cons, List.foldl_cons, Prod.map, id_eq, zipWith_take _ hy]
    apply ih
    simp only [List.length_zipWith]
    omega

theorem product_eq_leading (a : α) (x : List α) (b : α) {y : List α} {n : Nat} (hy : y.length ≤ n) :
    A.product a x b y =
      ((A.leading n).zip x).foldl
        (fun y (column, xj) => List.zipWith (fun yi entry => yi + entry * (a * xj)) y column) (scaled b y) := by
  rw [product, ← foldl_take a _ (by simpa using hy), leading, List.zip_map_left]

/-- A product reads the leading rows alone. -/
theorem product_congr (a : α) (x : List α) (b : α) {y : List α} {n : Nat} (hy : y.length ≤ n)
    (h : A.leading n = B.leading n) : A.product a x b y = B.product a x b y := by
  rw [product_eq_leading a x b hy, product_eq_leading a x b hy, h]

/-! ## Products with the transpose -/

theorem transposedProduct_eq_leading (a : α) (x : List α) (b : α) (y : List α) :
    A.transposedProduct a x b y =
      List.zipWith (fun column yj => plusScaled (a * dot column x) b yj) (A.leading x.length) y := by
  rw [transposedProduct, leading, List.zipWith_map_left]

theorem transposedProduct_congr (a : α) (x : List α) (b : α) (y : List α) (h : A.leading x.length = B.leading x.length) :
    A.transposedProduct a x b y = B.transposedProduct a x b y := by
  rw [transposedProduct_eq_leading, transposedProduct_eq_leading, h]

/-! ## What is overwritten -/

section Overwritten

variable {b : α} (hb : Scalar.isZero b = true)
include hb

/-- Whatever a vector held whose factor is zero, as many entries as it has. -/
theorem scaled_over {y y' : List α} (h : y.length = y'.length) : scaled b y = scaled b y' := by
  rw [scaled, scaled, if_pos hb, if_pos hb, List.map_const', List.map_const', h]

theorem transposedProduct_over (a : α) (x : List α) {y y' : List α} (h : y.length = y'.length) :
    A.transposedProduct a x b y = A.transposedProduct a x b y' := by
  have hzip : ∀ y : List α, A.transposedProduct a x b y =
      List.zipWith (fun column _ => a * dot (column.take x.length) x) A.columns (y.map fun _ => ()) := by
    intro y
    simp only [transposedProduct, plusScaled, hb, if_true, List.zipWith_map_right]
  rw [hzip, hzip, List.map_const', List.map_const', h]

end Overwritten

/-! ## Symmetric products -/

/-- The sum over the held entries of a column reads these alone. -/
theorem heldDot_congr (t : Triangle) {col : Nat} {column column' x : List α}
    (h : ∀ row < x.length, t.holds row col = true → column.getD row 0 = column'.getD row 0) :
    heldDot t col column x = heldDot t col column' x := by
  apply List.foldl_ext
  intro acc row hrow
  rw [List.mem_filter, List.mem_range] at hrow
  rw [h row hrow.1 hrow.2]

omit [Scalar α] in
/-- A fold over vectors of one length needs its steps to agree on these alone. -/
theorem foldl_congr_length {ι : Type} {f g : List α → ι → List α} {n : Nat} {js : List ι}
    (hlen : ∀ j ∈ js, ∀ y : List α, y.length = n → (f y j).length = n)
    (h : ∀ j ∈ js, ∀ y : List α, y.length = n → f y j = g y j) {y : List α} (hy : y.length = n) :
    js.foldl f y = js.foldl g y := by
  induction js generalizing y with
  | nil => rfl
  | cons j js ih =>
    rw [List.forall_mem_cons] at hlen h
    rw [List.foldl_cons, List.foldl_cons, ← h.1 y hy]
    exact ih hlen.2 h.2 (hlen.1 y hy)

omit [Scalar α] in
theorem le_of_lower {i j : Nat} (h : i = j ∨ Triangle.lower.holds i j = true) : j ≤ i := by
  rcases h with rfl | h
  · exact Nat.le_refl i
  · exact Nat.le_of_lt (of_decide_eq_true h)

/-- The symmetric product reads the held triangle of the leading block alone. -/
theorem symmetricProduct_congr {t : Triangle} {n : Nat} (hc : A.cols = n) (hc' : B.cols = n) (hr : n ≤ A.rows)
    (hr' : n ≤ B.rows) (h : ∀ i < n, ∀ j < n, i = j ∨ t.holds i j = true → A.entry i j = B.entry i j) (a : α)
    {x : List α} (hx : x.length = n) (b : α) {y : List α} (hy : y.length = n) :
    A.symmetricProduct t a x b y = B.symmetricProduct t a x b y := by
  have hcol : ∀ row < n, ∀ col < n, row = col ∨ t.holds row col = true →
      (A.col col).getD row 0 = (B.col col).getD row 0 := by
    intro row hrow col hcol hheld
    rw [col_entry, col_entry, if_pos (by omega), if_pos (by omega), h row hrow col hcol hheld]
  rw [symmetricProduct, symmetricProduct, hc, hc']
  refine foldl_congr_length (n := n) ?_ ?_ (by simpa using hy)
  · intro col _ y hy
    simpa using hy
  · intro col hmem y hy
    have hlt := List.mem_range.mp hmem
    have hdot : heldDot t col (A.col col) x = heldDot t col (B.col col) x :=
      heldDot_congr t fun row hrow hheld => hcol row (hx ▸ hrow) col hlt (.inr hheld)
    apply List.ext_getElem
    · simp
    · intro row hrow _
      have hrow : row < n := by simpa [hy] using hrow
      simp only [List.getElem_mapIdx, hdot, hcol col hlt col hlt (.inl rfl)]
      by_cases hheld : t.holds row col = true
      · rw [if_pos hheld, if_pos hheld, hcol row hrow col hlt (.inr hheld)]
      · rw [if_neg hheld, if_neg hheld]

end Matrix

end HorizonQp.Linear
