/-
  HorizonQp.Proofs.Exact.Sums — the sums of the kernels, over exact numbers.

  A field has every operation that the kernels ask for. Over a field the order of the
  additions is no matter: a sum by halves is the sum of its terms (`accumulate_eq_sum`), so
  `sum` and `dot` are the sums that their names say. Entries are read as `x.getD i 0`, and
  sums run over the numbers below a bound, which may lie past the end of the list: what is
  missing there counts as zero.
-/

import Mathlib.Algebra.BigOperators.Group.Finset.Basic
import Mathlib.Algebra.BigOperators.Group.Finset.Sigma
import Mathlib.Algebra.BigOperators.Ring.Finset
import Mathlib.Algebra.Field.Basic
import Mathlib.Data.List.GetD
import Mathlib.Tactic.Ring
import HorizonQp.Linear.Sum

/-- A field of numbers, as opposed to the fields of a problem. -/
abbrev ExactField (K : Type) := Field K

namespace HorizonQp

/-- The numbers of a field, with exact operations. -/
instance fieldScalar {K : Type} [ExactField K] [DecidableEq K] : Scalar K where
  isZero x := decide (x = 0)

namespace Linear

open Finset (range)

/-! ## Lists as functions of an index -/

section Lists

variable {α β γ : Type}

theorem getD_map_lt (f : α → β) {xs : List α} {i : Nat} (a : α) (b : β) (h : i < xs.length) :
    (xs.map f).getD i b = f (xs.getD i a) := by
  rw [List.getD_eq_getElem _ _ (by rwa [List.length_map]), List.getD_eq_getElem _ _ h, List.getElem_map]

theorem getD_zipWith (f : α → β → γ) {xs : List α} {ys : List β} {i : Nat} (a : α) (b : β) (c : γ)
    (hx : i < xs.length) (hy : i < ys.length) :
    (List.zipWith f xs ys).getD i c = f (xs.getD i a) (ys.getD i b) := by
  rw [List.getD_eq_getElem _ _ (by rw [List.length_zipWith]; omega), List.getD_eq_getElem _ _ hx,
    List.getD_eq_getElem _ _ hy, List.getElem_zipWith]

theorem getD_append_ite (xs ys : List α) (i : Nat) (a : α) :
    (xs ++ ys).getD i a = if i < xs.length then xs.getD i a else ys.getD (i - xs.length) a := by
  simp only [List.getD_eq_getElem?_getD, List.getElem?_append]
  split <;> rfl

theorem getD_drop (xs : List α) (n i : Nat) (a : α) : (xs.drop n).getD i a = xs.getD (n + i) a := by
  simp only [List.getD_eq_getElem?_getD, List.getElem?_drop]

theorem getD_take (xs : List α) {n i : Nat} (a : α) (h : i < n) : (xs.take n).getD i a = xs.getD i a := by
  simp only [List.getD_eq_getElem?_getD, List.getElem?_take, if_pos h]

theorem getElem?_eq_getD (xs : List α) {i : Nat} (a : α) (h : i < xs.length) : xs[i]? = some (xs.getD i a) := by
  rw [List.getD_eq_getElem _ _ h, List.getElem?_eq_getElem h]

theorem getD_eq_zero [Zero α] {xs : List α} (h : ∀ x ∈ xs, x = 0) (i : Nat) : xs.getD i 0 = 0 := by
  by_cases hi : i < xs.length
  · rw [List.getD_eq_getElem _ _ hi]
    exact h _ (List.getElem_mem hi)
  · exact List.getD_eq_default _ _ (by omega)

theorem getD_lt {idx : List Nat} {n k : Nat} (hi : ∀ i ∈ idx, i < n) (hk : k < idx.length) : idx.getD k 0 < n := by
  rw [List.getD_eq_getElem _ _ hk]
  exact hi _ (List.getElem_mem hk)

/-- Two lists of one length with the same entries are the same. -/
theorem ext_getD {xs ys : List α} (a : α) (hl : xs.length = ys.length)
    (h : ∀ i < xs.length, xs.getD i a = ys.getD i a) : xs = ys := by
  apply List.ext_getElem hl
  intro i hx hy
  have := h i hx
  rwa [List.getD_eq_getElem _ _ hx, List.getD_eq_getElem _ _ hy] at this

/-- A list of `n` entries is the list of their values. -/
theorem eq_map_range {xs : List α} {n : Nat} {f : Nat → α} (a : α) (hl : xs.length = n)
    (h : ∀ i < n, xs.getD i a = f i) : xs = (List.range n).map f := by
  apply ext_getD a (by rw [List.length_map, List.length_range, hl])
  intro i hi
  have hr : i < (List.range n).length := by rwa [List.length_range, ← hl]
  rw [getD_map_lt f 0 a hr, List.getD_eq_getElem _ _ hr, List.getElem_range, h i (hl ▸ hi)]

end Lists

/-! ## Sums -/

section Halves

variable {K β : Type} [Zero K] [Add K] [Std.Associative fun a b : K => a + b]
  [Std.LawfulIdentity (fun a b : K => a + b) 0]

theorem foldl_add (f : β → K) (xs : List β) (a : K) :
    xs.foldl (fun acc x => acc + f x) a = a + (xs.map f).sum := by
  induction xs generalizing a with
  | nil => exact (Std.LawfulRightIdentity.right_id a).symm
  | cons x xs ih =>
    rw [List.foldl_cons, ih, List.map_cons, List.sum_cons]
    exact Std.Associative.assoc a (f x) _

/-- Cutting a sum in halves does not change it. -/
theorem accumulate_eq_sum (f : β → K) (xs : List β) : accumulate f xs = (xs.map f).sum := by
  fun_induction accumulate f xs with
  | case1 xs =>
    rw [foldl_add]
    exact Std.LawfulLeftIdentity.left_id _
  | case2 xs _ ih₁ ih₂ => rw [ih₁, ih₂, ← List.sum_append, ← List.map_append, List.take_append_drop]

theorem sum_eq (xs : List K) : sum xs = xs.sum := by
  rw [sum, accumulate_eq_sum, List.map_id]

end Halves

section Entries

variable {K : Type} [AddCommMonoid K]

theorem sum_map_range (f : Nat → K) (n : Nat) : ((List.range n).map f).sum = ∑ i ∈ range n, f i := rfl

theorem list_sum_eq {xs : List K} {n : Nat} (h : xs.length ≤ n) : xs.sum = ∑ i ∈ range n, xs.getD i 0 := by
  induction xs generalizing n with
  | nil => exact (Finset.sum_eq_zero fun i _ => List.getD_eq_default _ _ (Nat.zero_le i)).symm
  | cons x xs ih =>
    rw [List.length_cons] at h
    obtain ⟨n, rfl⟩ : ∃ m, n = m + 1 := ⟨n - 1, by omega⟩
    rw [List.sum_cons, Finset.sum_range_succ', ih (n := n) (by omega), add_comm]
    rfl

end Entries

section Products

variable {K : Type} [CommSemiring K]

theorem dot_eq (xs ys : List K) {n : Nat} (h : min xs.length ys.length ≤ n) :
    dot xs ys = ∑ i ∈ range n, xs.getD i 0 * ys.getD i 0 := by
  have hl : (xs.zip ys).map (fun p => p.1 * p.2) = List.zipWith (· * ·) xs ys := by
    rw [List.zip, List.map_zipWith]
  rw [dot, accumulate_eq_sum]
  show ((xs.zip ys).map fun p => p.1 * p.2).sum = _
  rw [hl, list_sum_eq (n := n) (by rwa [List.length_zipWith])]
  refine Finset.sum_congr rfl fun i _ => ?_
  by_cases hi : i < xs.length ∧ i < ys.length
  · exact getD_zipWith _ 0 0 0 hi.1 hi.2
  · rw [List.getD_eq_default _ _ (by rw [List.length_zipWith]; omega)]
    by_cases hx : i < xs.length
    · rw [List.getD_eq_default ys _ (by omega), mul_zero]
    · rw [List.getD_eq_default xs _ (by omega), zero_mul]

theorem dot_nil (y : List K) : dot [] y = 0 := by
  rw [dot, accumulate_eq_sum]
  rfl

theorem dot_append {x y : List K} (h : x.length = y.length) (x' y' : List K) :
    dot (x ++ x') (y ++ y') = dot x y + dot x' y' := by
  simp only [dot, accumulate_eq_sum]
  rw [List.zip_append h, List.map_append, List.sum_append]

/-- A sum over the rows of a matrix, against a direction, is a sum over its columns. -/
theorem sum_rows_mul (n m : Nat) (M : Nat → Nat → K) (y δ : Nat → K) :
    ∑ i ∈ range n, (∑ k ∈ range m, M i k * y k) * δ i = ∑ k ∈ range m, y k * ∑ i ∈ range n, M i k * δ i := by
  simp only [Finset.sum_mul, Finset.mul_sum]
  rw [Finset.sum_comm]
  refine Finset.sum_congr rfl fun k _ => Finset.sum_congr rfl fun i _ => ?_
  ring

/-- Adding through an index array is the transpose of reading through it. -/
theorem sum_scattered_mul {n m : Nat} {idx : Nat → Nat} (hidx : ∀ k < m, idx k < n) (y δ : Nat → K) :
    ∑ i ∈ range n, (∑ k ∈ range m, if idx k = i then y k else 0) * δ i = ∑ k ∈ range m, y k * δ (idx k) := by
  simp only [Finset.sum_mul, ite_mul, zero_mul]
  rw [Finset.sum_comm]
  refine Finset.sum_congr rfl fun k hk => ?_
  rw [Finset.sum_ite_eq, if_pos (Finset.mem_range.mpr (hidx k (Finset.mem_range.mp hk)))]

/-- The bilinear form of a symmetric matrix is symmetric. -/
theorem sum_form_comm (n : Nat) {M : Nat → Nat → K} (hM : ∀ i j, M i j = M j i) (x y : Nat → K) :
    ∑ i ∈ range n, x i * ∑ j ∈ range n, M i j * y j = ∑ i ∈ range n, y i * ∑ j ∈ range n, M i j * x j := by
  simp only [Finset.mul_sum]
  rw [Finset.sum_comm]
  refine Finset.sum_congr rfl fun i _ => Finset.sum_congr rfl fun j _ => ?_
  rw [hM j i]
  ring

end Products

end Linear

end HorizonQp
