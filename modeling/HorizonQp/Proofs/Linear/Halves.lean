/-
  HorizonQp.Proofs.Linear.Halves — sums by halves, place by place.

  A sum by halves works on places: fewer than `block` from a first one on are added from
  left to right, more are cut in the middle (`walk`). Whatever visiting a place does, every
  place is visited once, and in order, before the sum of the terms is there (`walk_eq`). A
  recursion for at most `(block - 1) <<< cuts` places is no more than `cuts` deep, and so it
  ends.

  Hence the order is no matter where the addition is associative with zero neutral: `sum` and
  `dot` are then the sums from left to right. And where no law holds, `mulDot` adds up the
  products that it stored on the very walk that `dot` takes (`accumulate_map`), so the two
  give the same value to the bit (`summed_by_halves`).
-/

import HorizonQp.Binary.Numbers
import HorizonQp.Proofs.Linear.Multiply

namespace HorizonQp.Linear

variable {α : Type}

section Walk

variable {m : Type → Type} [Monad m] [Zero α] [Add α]

/-- Visits a place, and then reads its term. -/
def visiting (visit : Nat → m Unit) (term : Nat → α) (i : Nat) : m α := do
  visit i
  pure (term i)

/-- The sum by halves of what `read` finds at `count` places from `first` on, at most `cuts`
    cuts deep: what would have to be cut once more is `deeper`. -/
def walk (deeper : m α) (read : Nat → m α) (cuts first count : Nat) : m α :=
  if count < block then
    (List.range' first count).foldlM (fun acc i => do
      let term ← read i
      pure (acc + term)) 0
  else
    match cuts with
    | 0 => deeper
    | cuts + 1 => do
      let left ← walk deeper read cuts first (count / 2)
      let right ← walk deeper read cuts (first + count / 2) (count - count / 2)
      pure (left + right)

/-! ## Every place once, and in order -/

omit [Monad m] in
/-- A sum over two runs, the first of which is half of both. -/
theorem accumulate_append {β : Type} (f : β → α) {xs ys : List β} (hlong : block ≤ xs.length + ys.length)
    (hhalf : (xs.length + ys.length) / 2 = xs.length) :
    accumulate f (xs ++ ys) = accumulate f xs + accumulate f ys := by
  rw [accumulate, List.length_append, if_neg (Nat.not_lt.mpr hlong), hhalf, List.take_left, List.drop_left]

variable [LawfulMonad m] (visit : Nat → m Unit) (term : Nat → α)

omit [Zero α] in
theorem foldlM_visiting (is : List Nat) (acc : α) :
    is.foldlM (fun acc i => do
        let t ← visiting visit term i
        pure (acc + t)) acc =
      (do
        forM is visit
        pure (is.foldl (fun acc i => acc + term i) acc)) := by
  induction is generalizing acc with
  | nil => simp only [List.foldlM_nil, List.forM_nil, pure_bind, List.foldl_nil]
  | cons i is ih =>
    rw [List.foldlM_cons, List.forM_cons, List.foldl_cons, visiting]
    simp only [bind_assoc, pure_bind]
    exact bind_congr fun _ => ih (acc + term i)

theorem walk_of_short (deeper : m α) (cuts : Nat) {first count : Nat} (h : count < block) :
    walk deeper (visiting visit term) cuts first count =
      (do
        forM (List.range' first count) visit
        pure (accumulate term (List.range' first count))) := by
  rw [walk.eq_def, if_pos h, foldlM_visiting, accumulate, List.length_range', if_pos h]

theorem walk_eq (deeper : m α) {cuts first count : Nat} (h : count ≤ (block - 1) <<< cuts) :
    walk deeper (visiting visit term) cuts first count =
      (do
        forM (List.range' first count) visit
        pure (accumulate term (List.range' first count))) := by
  induction cuts generalizing first count with
  | zero => exact walk_of_short visit term deeper 0 (Nat.lt_of_le_of_lt h (by decide))
  | succ cuts ih =>
    by_cases hcount : count < block
    · exact walk_of_short visit term deeper (cuts + 1) hcount
    -- the halves together are the whole run, and no half has more than half the places, rounded up
    rw [Nat.shiftLeft_succ] at h
    have hrun : List.range' first count =
        List.range' first (count / 2) ++ List.range' (first + count / 2) (count - count / 2) := by
      rw [List.range'_append_1, Nat.add_sub_cancel' (Nat.div_le_self count 2)]
    have hsum : accumulate term (List.range' first count) =
        accumulate term (List.range' first (count / 2)) +
          accumulate term (List.range' (first + count / 2) (count - count / 2)) := by
      rw [hrun, accumulate_append] <;> simp only [List.length_range'] <;> omega
    rw [walk, if_neg hcount, ih (by omega), ih (by omega), hsum, hrun, List.forM_append]
    simp only [bind_assoc, pure_bind]

end Walk

/-- A number has as many binary digits as it takes to halve it away. -/
theorem le_shiftLeft_log2 (n : Nat) : n ≤ (block - 1) <<< n.log2 := by
  have hdigits : n < 2 ^ (n.log2 + 1) := Nat.lt_log2_self
  rw [Nat.shiftLeft_eq, block]
  omega

/-! ## The walks of a sum and of a sum of products -/

section Terms

variable [Zero α] [Add α]

/-- Terms may be computed as they are added, or before. -/
theorem accumulate_map {β γ : Type} (f : β → α) (g : γ → β) (xs : List γ) :
    accumulate f (xs.map g) = accumulate (fun x => f (g x)) xs := by
  fun_induction accumulate (fun x => f (g x)) xs with
  | case1 xs h => rw [accumulate, List.length_map, if_pos h, List.foldl_map]
  | case2 xs h ih₁ ih₂ => rw [accumulate, List.length_map, if_neg h, ← List.map_take, ← List.map_drop, ih₁, ih₂]

theorem sum_eq_accumulate {x : List α} {n : Nat} {term : Nat → α} (hn : x.length = n)
    (h : ∀ i < n, x.getD i 0 = term i) : sum x = accumulate term (List.range n) := by
  rw [sum, eq_map_range 0 hn h, accumulate_map]
  rfl

variable [Mul α]

/-- The sum of products that were stored is the sum of the products as they are added. -/
theorem sum_mul (x y : List α) : sum (mul x y) = dot x y := by
  have hmul : mul x y = (x.zip y).map fun entries => entries.1 * entries.2 := by
    rw [mul, List.zip, List.map_zipWith]
  rw [sum, hmul, accumulate_map]
  rfl

/-- The products of `x` and `y`, each stored in its place of `w`. -/
def mulInto (x y w : List α) : List α :=
  (List.range w.length).foldl (fun w i => w.modify i fun _ => x.getD i 0 * y.getD i 0) w

omit [Add α] in
theorem mulInto_eq {x y w : List α} (hx : w.length = x.length) (hy : w.length = y.length) : mulInto x y w = mul x y := by
  have hmul : mul x y = (List.range w.length).map fun i => x.getD i 0 * y.getD i 0 :=
    eq_map_range 0 ((length_mul (hx.symm.trans hy)).trans hy.symm) fun i hi => getD_zipWith _ 0 0 0 (hx ▸ hi) (hy ▸ hi)
  rw [mulInto, foldl_replace _ rfl, hmul]

end Terms

/-! ## Together -/

/-- What the sum of `x` and the sum of its products with `y` are. -/
structure SummedByHalves [Zero α] [Add α] [Mul α] (x y : List α) : Prop where
  answers : dot? x y = some (dot x y)
  /-- As many cuts as the length has binary digits are enough for the recursion to end. -/
  ends : x.length ≤ (block - 1) <<< x.length.log2
  /-- Until then it visits each place once, and in order. -/
  sum_visits : ∀ {m : Type → Type} [Monad m] [LawfulMonad m] (deeper : m α) (visit : Nat → m Unit) (cuts : Nat),
    x.length ≤ (block - 1) <<< cuts →
      walk deeper (visiting visit fun i => x.getD i 0) cuts 0 x.length =
        (do
          forM (List.range x.length) visit
          pure (sum x))
  dot_visits : ∀ {m : Type → Type} [Monad m] [LawfulMonad m] (deeper : m α) (visit : Nat → m Unit) (cuts : Nat),
    x.length ≤ (block - 1) <<< cuts →
      walk deeper (visiting visit fun i => x.getD i 0 * y.getD i 0) cuts 0 x.length =
        (do
          forM (List.range x.length) visit
          pure (dot x y))
  /-- The cuts are no matter to an associative addition with zero neutral. -/
  fromLeft : Std.Associative (fun a b : α => a + b) → Std.LawfulIdentity (fun a b : α => a + b) 0 →
    sum x = x.foldl (· + ·) 0 ∧ dot x y = (List.zipWith (· * ·) x y).foldl (· + ·) 0
  /-- Storing the products changes nothing about their sum. -/
  stores : ∀ w : List α, w.length = x.length →
    mulDot? w.length x y = some (mulInto x y w, dot x y) ∧ mulInto x y w = List.zipWith (· * ·) x y

theorem summed_by_halves [Zero α] [Add α] [Mul α] {x y : List α} (h : x.length = y.length) : SummedByHalves x y where
  answers := if_pos h
  ends := le_shiftLeft_log2 x.length
  sum_visits deeper visit cuts hcuts := by
    rw [walk_eq visit _ deeper hcuts, ← List.range_eq_range', sum_eq_accumulate rfl fun _ _ => rfl]
  dot_visits deeper visit cuts hcuts := by
    rw [walk_eq visit _ deeper hcuts, ← List.range_eq_range', ← sum_mul,
      sum_eq_accumulate ((length_mul h).trans h.symm) fun i hi => getD_zipWith _ 0 0 0 hi (h ▸ hi)]
  fromLeft _ _ := by
    rw [← sum_mul, sum_eq, sum_eq, List.sum_eq_foldl, List.sum_eq_foldl]
    exact ⟨rfl, rfl⟩
  stores w hw := by
    rw [mulInto_eq hw (hw.trans h), mulDot?, if_pos ⟨hw, hw.trans h⟩, mulDot, sum_mul]
    exact ⟨rfl, rfl⟩

/-- Writes down which places are visited. -/
def logVisit (i : Nat) : StateM (List Nat) Unit := modify (· ++ [i])

/-- A one and sixteen halves of its last place: from the left each half is lost, by halves the
    last nine of them are not. -/
theorem summed_by_halves_odd :
    let x : List Binary.Double := 1 :: List.replicate 16 ⟨0x3ca0000000000000⟩
    let y : List Binary.Double := List.replicate 17 1
    x.length = y.length ∧
      (walk (pure 0) (visiting logVisit fun i => x.getD i 0) 1 0 x.length).run [] = (sum x, List.range 17) ∧
      mulDot? x.length x y = some (List.zipWith (· * ·) x y, dot x y) ∧
      dot x y = ⟨0x3ff0000000000004⟩ ∧ (List.zipWith (· * ·) x y).foldl (· + ·) 0 = 1 := by
  intro x y
  have h : SummedByHalves x y := summed_by_halves rfl
  refine ⟨rfl, ?_, ?_, ?_, ?_⟩
  · rw [h.sum_visits (pure 0) logVisit 1 (by decide)]
    rfl
  · obtain ⟨hdot, hmul⟩ := h.stores x rfl
    rw [← hmul]
    exact hdot
  · decide +kernel
  · decide +kernel

end HorizonQp.Linear
