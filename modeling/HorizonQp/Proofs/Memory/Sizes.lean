/-
  HorizonQp.Proofs.Memory.Sizes — sizes without the machine.

  Checked arithmetic answers with the exact result or not at all (`add?_eq_some`,
  `mul?_eq_some`, `sum?_eq_some`), and unchecked arithmetic is exact on what fits a word
  (`wrap_of_lt`). The mask that aligns a word is `roundUp`, the next multiple of a cache
  line (`alignUp_cacheLine`). So a size that was computed is a size in the natural
  numbers, and the rest of the theory works with those.
-/

import HorizonQp.Dims

namespace HorizonQp

/-! ## Totals -/

@[simp] theorem total_nil : total [] = 0 := rfl

@[simp] theorem total_cons (n : Nat) (ns : List Nat) : total (n :: ns) = n + total ns := rfl

@[simp] theorem total_append (ms ns : List Nat) : total (ms ++ ns) = total ms + total ns := by
  induction ms with
  | nil => simp
  | cons m ms ih => simp only [List.cons_append, total_cons, ih]; omega

theorem le_total {n : Nat} {ns : List Nat} (h : n ∈ ns) : n ≤ total ns := by
  induction ns with
  | nil => cases h
  | cons m ms ih =>
    rw [total_cons]
    rcases List.mem_cons.mp h with rfl | h
    · omega
    · have := ih h; omega

theorem total_take_le (ns : List Nat) (k : Nat) : total (ns.take k) ≤ total ns := by
  have h : total (ns.take k ++ ns.drop k) = total ns := by rw [List.take_append_drop]
  rw [total_append] at h
  omega

theorem total_map_mul (c : Nat) (ns : List Nat) : total (ns.map (· * c)) = total ns * c := by
  induction ns with
  | nil => simp
  | cons n ns ih => rw [List.map_cons, total_cons, ih, total_cons, Nat.add_mul]

theorem total_map_add {ι : Type} (f g : ι → Nat) (is : List ι) :
    total (is.map fun i => f i + g i) = total (is.map f) + total (is.map g) := by
  induction is with
  | nil => rfl
  | cons i is ih => simp only [List.map_cons, total_cons, ih]; omega

theorem total_map_le {ι : Type} {f g : ι → Nat} {is : List ι} (h : ∀ i ∈ is, f i ≤ g i) :
    total (is.map f) ≤ total (is.map g) := by
  induction is with
  | nil => exact Nat.le_refl _
  | cons i is ih =>
    have h1 := h i (List.mem_cons_self ..)
    have h2 := ih fun j hj => h j (List.mem_cons_of_mem _ hj)
    simp only [List.map_cons, total_cons]
    omega

theorem total_range_le {f g : Nat → Nat} {m n : Nat} (hmn : m ≤ n) (h : ∀ i < m, f i ≤ g i) :
    total ((List.range m).map f) ≤ total ((List.range n).map g) := by
  have hprefix : (List.range m).map g = ((List.range n).map g).take m := by
    rw [← List.map_take, List.take_range, Nat.min_eq_left hmn]
  calc total ((List.range m).map f)
      ≤ total ((List.range m).map g) := total_map_le fun i hi => h i (List.mem_range.mp hi)
    _ = total (((List.range n).map g).take m) := congrArg total hprefix
    _ ≤ total ((List.range n).map g) := total_take_le _ _

namespace Word

/-! ## Checked and unchecked arithmetic -/

theorem wrap_lt (n : Nat) : wrap n < limit := Nat.mod_lt n (by decide)

theorem wrap_of_lt {n : Nat} (h : n < limit) : wrap n = n := Nat.mod_eq_of_lt h

theorem add?_eq_some {a b c : Nat} : add? a b = some c ↔ a + b < limit ∧ a + b = c := by
  unfold add?
  split <;> simp [*]

theorem mul?_eq_some {a b c : Nat} : mul? a b = some c ↔ a * b < limit ∧ a * b = c := by
  unfold mul?
  split <;> simp [*]

theorem foldlM_add?_eq_some {ns : List Nat} {a c : Nat} (ha : a < limit) :
    ns.foldlM add? a = some c ↔ a + total ns < limit ∧ a + total ns = c := by
  induction ns generalizing a with
  | nil => simp [ha]
  | cons n ns ih =>
    rw [List.foldlM_cons, total_cons]
    by_cases h : a + n < limit
    · have hs : add? a n = some (a + n) := add?_eq_some.mpr ⟨h, rfl⟩
      simp only [hs, Option.bind_eq_bind, Option.bind_some]
      rw [ih h, Nat.add_assoc]
    · have hn : add? a n = none := by simp [add?, h]
      simp only [hn, Option.bind_eq_bind, Option.bind_none]
      constructor
      · intro h'; cases h'
      · intro h
        rcases h with ⟨h', -⟩
        omega

theorem sum?_eq_some {ns : List Nat} {c : Nat} : sum? ns = some c ↔ total ns < limit ∧ total ns = c := by
  unfold sum?
  rw [foldlM_add?_eq_some (by decide), Nat.zero_add]

/-! ### With what is computed from them -/

section Bind

variable {α : Type} {f : Nat → Option α} {r : α}

theorem bind_add?_eq_some {a b : Nat} : (add? a b >>= f) = some r ↔ a + b < limit ∧ f (a + b) = some r := by
  simp [Option.bind_eq_some_iff, add?_eq_some, and_assoc]

theorem bind_mul?_eq_some {a b : Nat} : (mul? a b >>= f) = some r ↔ a * b < limit ∧ f (a * b) = some r := by
  simp [Option.bind_eq_some_iff, mul?_eq_some, and_assoc]

theorem bind_sum?_eq_some {ns : List Nat} : (sum? ns >>= f) = some r ↔ total ns < limit ∧ f (total ns) = some r := by
  simp [Option.bind_eq_some_iff, sum?_eq_some, and_assoc]

end Bind

/-! ## Alignment -/

/-- The first multiple of a cache line that is not below `n`. -/
def roundUp (n : Nat) : Nat := (n + 63) / 64 * 64

theorem le_roundUp (n : Nat) : n ≤ roundUp n := by unfold roundUp; omega

theorem roundUp_mono {m n : Nat} (h : m ≤ n) : roundUp m ≤ roundUp n := by unfold roundUp; omega

theorem dvd_roundUp (n : Nat) : 64 ∣ roundUp n := ⟨(n + 63) / 64, by unfold roundUp; omega⟩

/-- Clearing the six low bits of a word rounds it down to a cache line. -/
theorem and_clear_low {x : Nat} (h : x < limit) : x &&& (limit - 64) = x / 64 * 64 := by
  have hm : limit - 64 = (2 ^ 58 - 1) * 2 ^ 6 := by decide
  have h : x < 2 ^ 64 := h
  rw [hm, show (64 : Nat) = 2 ^ 6 from rfl]
  apply Nat.eq_of_testBit_eq
  intro i
  rw [Nat.testBit_and, Nat.testBit_mul_two_pow, Nat.testBit_mul_two_pow, Nat.testBit_two_pow_sub_one,
    Nat.testBit_div_two_pow]
  by_cases hi : 6 ≤ i
  · have e : i - 6 + 6 = i := by omega
    rw [e]
    by_cases hj : i < 64
    · have hj' : i - 6 < 58 := by omega
      simp [hi, hj']
    · have hx : x.testBit i = false :=
        Nat.testBit_lt_two_pow (Nat.lt_of_lt_of_le h (Nat.pow_le_pow_right (by decide) (by omega)))
      simp [hx]
  · simp [hi]

theorem alignUp_cacheLine {n : Nat} (h : n + 63 < limit) : alignUp n cacheLine = roundUp n := by
  have hl : n + 63 < 2 ^ 64 := h
  have hx : (n.toUInt64 + cacheLine.toUInt64 - 1).toNat = n + 63 := by
    have e : n.toUInt64 + cacheLine.toUInt64 - 1 = (n + 63).toUInt64 := by
      apply UInt64.toNat_inj.1
      simp [cacheLine, UInt64.toNat_sub, UInt64.toNat_add]
      omega
    rw [e]
    simp
    omega
  have hmask : (~~~(cacheLine.toUInt64 - 1)).toNat = limit - 64 := by decide
  unfold alignUp
  rw [UInt64.toNat_and, hx, hmask, and_clear_low h]
  rfl

theorem matrixBytes?_eq_some {size m n c : Nat} :
    matrixBytes? size m n = some c ↔
      m * n < limit ∧ m * n * size + 63 < limit ∧ roundUp (m * n * size) = c := by
  simp only [matrixBytes?, Option.bind_eq_bind, Option.bind_eq_some_iff, mul?_eq_some, add?_eq_some, cacheLine]
  constructor
  · intro h
    rcases h with ⟨_, ⟨hmn, rfl⟩, _, ⟨_, rfl⟩, _, ⟨hup, rfl⟩, hc⟩
    refine ⟨hmn, hup, ?_⟩
    rw [← alignUp_cacheLine hup]
    exact Option.some.inj hc
  · intro h
    rcases h with ⟨hmn, hup, hc⟩
    refine ⟨_, ⟨hmn, rfl⟩, _, ⟨by omega, rfl⟩, _, ⟨hup, rfl⟩, ?_⟩
    rw [← hc, ← alignUp_cacheLine hup]
    rfl

theorem vectorBytes?_eq_some {size n c : Nat} :
    vectorBytes? size n = some c ↔ n < limit ∧ n * size + 63 < limit ∧ roundUp (n * size) = c := by
  unfold vectorBytes?
  rw [matrixBytes?_eq_some, Nat.mul_one]

theorem bind_vectorBytes?_eq_some {α : Type} {f : Nat → Option α} {r : α} {size n : Nat} :
    (vectorBytes? size n >>= f) = some r ↔ n < limit ∧ n * size + 63 < limit ∧ f (roundUp (n * size)) = some r := by
  simp [Option.bind_eq_some_iff, vectorBytes?_eq_some, and_assoc]

end Word

end HorizonQp
