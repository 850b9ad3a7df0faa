/-
  HorizonQp.Proofs.Linear.Entries — entries and their places.

  `Order.coords` and `Order.index` are inverse on the entries of a matrix, in both orders
  (`index_coords`; the other half is `coords_index`), so an array in one order and the
  same array in the other have the same entries. A matrix holds its entries column by
  column, and a place among them is a row and a column (`mod_index`, `div_index`). A matrix
  made from a function has its values as entries (`ofFn_entry`).
-/

import HorizonQp.Linear.Matrix

namespace HorizonQp.Linear

namespace Order

variable (order : Order) {m n i j k : Nat}

theorem index_lt (hi : i < m) (hj : j < n) : order.index m n i j < m * n := by
  cases order with
  | columnMajor =>
    have h := Nat.mul_le_mul_right m (show j + 1 ≤ n from hj)
    rw [Nat.succ_mul, Nat.mul_comm n m] at h
    show i + j * m < m * n
    omega
  | rowMajor =>
    have h := Nat.mul_le_mul_right n (show i + 1 ≤ m from hi)
    rw [Nat.succ_mul] at h
    show i * n + j < m * n
    omega

theorem coords_lt (hk : k < m * n) : (order.coords m n k).1 < m ∧ (order.coords m n k).2 < n := by
  have hm : 0 < m := Nat.pos_of_ne_zero fun h => by simp [h] at hk
  have hn : 0 < n := Nat.pos_of_ne_zero fun h => by simp [h] at hk
  cases order with
  | columnMajor => exact ⟨Nat.mod_lt _ hm, (Nat.div_lt_iff_lt_mul hm).mpr (by rwa [Nat.mul_comm n m])⟩
  | rowMajor => exact ⟨(Nat.div_lt_iff_lt_mul hn).mpr hk, Nat.mod_lt _ hn⟩

theorem index_coords (m n k : Nat) : order.index m n (order.coords m n k).1 (order.coords m n k).2 = k := by
  cases order with
  | columnMajor =>
    show k % m + k / m * m = k
    rw [Nat.mul_comm, Nat.mod_add_div]
  | rowMajor =>
    show k / n * n + k % n = k
    rw [Nat.mul_comm, Nat.div_add_mod]

end Order

namespace Matrix

variable {α : Type} {A : Matrix α} {r c : Nat}

/-- The matrix of the same shape with other entries. -/
def withData (A : Matrix α) (data : List α) : Matrix α := ⟨A.rows, A.cols, data⟩

theorem index_lt (h : A.WellShaped) (hr : r < A.rows) (hc : c < A.cols) : A.index r c < A.data.length := by
  have := Order.index_lt .columnMajor hr hc
  rw [h]
  simpa [Order.index, index, Nat.mul_comm] using this

/-- The row of a place among the entries. -/
theorem mod_index (hr : r < A.rows) : A.index r c % A.rows = r := by
  rw [index, Nat.add_mul_mod_self_left, Nat.mod_eq_of_lt hr]

theorem div_index (hr : r < A.rows) : A.index r c / A.rows = c := by
  rw [index, Nat.add_mul_div_left _ _ (by omega), Nat.div_eq_of_lt hr, Nat.zero_add]

theorem entry_eq [Zero α] (A : Matrix α) (r c : Nat) : A.entry r c = (A.data[A.index r c]?).getD 0 :=
  List.getD_eq_getElem?_getD ..

theorem ofFn_wellShaped (m n : Nat) (f : Nat → Nat → α) : (ofFn m n f).WellShaped := by
  rw [WellShaped, ofFn, List.length_map, List.length_range]

theorem ofFn_entry [Zero α] {m n : Nat} (f : Nat → Nat → α) (hr : r < m) (hc : c < n) :
    (ofFn m n f).entry r c = f r c := by
  have hlt : (ofFn m n f).index r c < m * n := ofFn_wellShaped m n f ▸ index_lt (ofFn_wellShaped m n f) hr hc
  have hrow : (ofFn m n f).index r c % m = r := mod_index hr
  have hcol : (ofFn m n f).index r c / m = c := div_index hr
  show ((List.range (m * n)).map fun k => f (k % m) (k / m)).getD ((ofFn m n f).index r c) 0 = f r c
  rw [List.getD_eq_getElem?_getD, List.getElem?_map, List.getElem?_range hlt, Option.map_some, Option.getD_some, hrow,
    hcol]

end Matrix

end HorizonQp.Linear
