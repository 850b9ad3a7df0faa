/-
  HorizonQp.Proofs.Memory.Bytes — what a read sees of a write.

  A write replaces the bytes of its range and no other (`getElem?_write?`), so a read of
  the range gives what was written (`items_write?_self`) and a read apart from it what was
  there before (`items_write?_apart`). Words and numbers are both items of a fixed width,
  one behind the other, and a run of items of a longer run is found at its place
  (`items_run`).
-/

import HorizonQp.Block

namespace HorizonQp

/-- Numbers whose bytes are as many as their width says, a divisor of a word's. -/
class FixedWidth (α : Type) [Stored α] : Prop where
  width_dvd : Stored.width α ∣ 8
  length_encode (a : α) : (Stored.encode a).length = Stored.width α

instance {α : Type} [Stored α] [Zero α] [LawfulStored α] : FixedWidth α where
  width_dvd := LawfulStored.width_dvd
  length_encode := LawfulStored.length_encode

theorem FixedWidth.width_pos (α : Type) [Stored α] [FixedWidth α] : 0 < Stored.width α :=
  Nat.pos_of_dvd_of_pos (width_dvd (α := α)) (by decide)

namespace Block

variable {b b' : Block}

/-! ## Bytes -/

theorem getElem?_splice {bytes : Array UInt8} {start : Nat} {bs : List UInt8} (h : start + bs.length ≤ bytes.size)
    (k : Nat) :
    (splice bytes start bs)[k]? = if start ≤ k ∧ k < start + bs.length then bs[k - start]? else bytes[k]? := by
  have hs : min start bytes.size = start := by omega
  simp only [splice, Array.getElem?_append, Array.size_append, Array.size_extract, hs, Nat.sub_zero,
    List.size_toArray, Array.getElem?_extract, List.getElem?_toArray, Nat.min_self]
  by_cases h1 : k < start
  · have h2 : k < start + bs.length := by omega
    have h3 : ¬ start ≤ k := by omega
    simp [h1, h2, h3]
  by_cases h2 : k < start + bs.length
  · have h3 : start ≤ k ∧ k < start + bs.length := by omega
    simp [h1, h2, h3]
  · have h3 : ¬ (start ≤ k ∧ k < start + bs.length) := by omega
    have e : start + bs.length + (k - (start + bs.length)) = k := by omega
    rw [if_neg h2, if_neg h3, e]
    by_cases h4 : k < bytes.size
    · rw [if_pos (by omega)]
    · rw [if_neg (by omega), Array.getElem?_eq_none (by omega)]

theorem size_splice {bytes : Array UInt8} {start : Nat} {bs : List UInt8} (h : start + bs.length ≤ bytes.size) :
    (splice bytes start bs).size = bytes.size := by
  simp only [splice, Array.size_append, Array.size_extract, List.size_toArray]
  omega

theorem write?_eq_some {o : Nat} {bs : List UInt8} :
    b.write? o bs = some b' ↔ b.base + o + bs.length ≤ b.size ∧ { b with bytes := splice b.bytes (b.base + o) bs } = b' := by
  unfold write?
  simp only
  split <;> simp [*]

theorem base_write? {o : Nat} {bs : List UInt8} (h : b.write? o bs = some b') : b'.base = b.base := by
  obtain ⟨-, rfl⟩ := write?_eq_some.mp h
  rfl

theorem size_write? {o : Nat} {bs : List UInt8} (h : b.write? o bs = some b') : b'.size = b.size := by
  obtain ⟨hle, rfl⟩ := write?_eq_some.mp h
  exact size_splice hle

/-- A write replaces the bytes of its range and no other. -/
theorem getElem?_write? {o : Nat} {bs : List UInt8} (h : b.write? o bs = some b') (k : Nat) :
    b'.bytes[k]? = if b.base + o ≤ k ∧ k < b.base + o + bs.length then bs[k - (b.base + o)]? else b.bytes[k]? := by
  obtain ⟨hle, rfl⟩ := write?_eq_some.mp h
  exact getElem?_splice hle k

theorem write?_isSome {o : Nat} {bs : List UInt8} (h : b.base + o + bs.length ≤ b.size) :
    ∃ b', b.write? o bs = some b' := ⟨_, write?_eq_some.mpr ⟨h, rfl⟩⟩

theorem read?_eq_some {o n : Nat} {bs : List UInt8} :
    b.read? o n = some bs ↔
      b.base + o + n ≤ b.size ∧ bs.length = n ∧ ∀ k < n, bs[k]? = b.bytes[b.base + o + k]? := by
  unfold read?
  simp only
  by_cases h : b.base + o + n ≤ b.size
  · have hlen : (b.bytes.extract (b.base + o) (b.base + o + n)).toList.length = n := by
      rw [Array.length_toList, Array.size_extract]
      have : b.bytes.size = b.size := rfl
      omega
    have hget : ∀ k < n, (b.bytes.extract (b.base + o) (b.base + o + n)).toList[k]? = b.bytes[b.base + o + k]? := by
      intro k hk
      rw [Array.getElem?_toList, Array.getElem?_extract]
      have : b.bytes.size = b.size := rfl
      rw [if_pos (by omega)]
    rw [if_pos h]
    constructor
    · intro e
      cases e
      exact ⟨h, hlen, hget⟩
    · intro h
      rcases h with ⟨-, hl, hg⟩
      congr 1
      apply List.ext_getElem?
      intro k
      by_cases hk : k < n
      · rw [hg k hk, hget k hk]
      · rw [List.getElem?_eq_none (by omega), List.getElem?_eq_none (by omega)]
  · simp [h]

theorem read?_isSome {o n : Nat} (h : b.base + o + n ≤ b.size) : ∃ bs, b.read? o n = some bs := by
  unfold read?
  simp only [if_pos h]
  exact ⟨_, rfl⟩

/-- Reads of a range see nothing else. -/
theorem read?_congr {o n : Nat} (hb : b'.base = b.base) (hs : b'.size = b.size)
    (h : ∀ k < n, b'.bytes[b.base + o + k]? = b.bytes[b.base + o + k]?) : b'.read? o n = b.read? o n := by
  apply Option.ext
  intro bs
  rw [read?_eq_some, read?_eq_some, hb, hs]
  constructor
  · intro h
    rcases h with ⟨h1, h2, h3⟩
    exact ⟨h1, h2, fun k hk => (h3 k hk).trans (h k hk)⟩
  · intro h
    rcases h with ⟨h1, h2, h3⟩
    exact ⟨h1, h2, fun k hk => (h3 k hk).trans (h k hk).symm⟩

theorem read?_write?_self {o : Nat} {bs : List UInt8} (h : b.write? o bs = some b') :
    b'.read? o bs.length = some bs := by
  have hle := (write?_eq_some.mp h).1
  rw [read?_eq_some, base_write? h, size_write? h]
  refine ⟨hle, rfl, fun k hk => ?_⟩
  rw [getElem?_write? h, if_pos (by omega)]
  congr 1
  omega

theorem read?_write?_apart {o o' n : Nat} {bs : List UInt8} (h : b.write? o bs = some b')
    (hd : o' + n ≤ o ∨ o + bs.length ≤ o') : b'.read? o' n = b.read? o' n := by
  refine read?_congr (base_write? h) (size_write? h) fun k hk => ?_
  rw [getElem?_write? h, if_neg (by omega)]

theorem read?_run {o n i m : Nat} {bs : List UInt8} (h : b.read? o n = some bs) (him : i + m ≤ n) :
    b.read? (o + i) m = some ((bs.drop i).take m) := by
  obtain ⟨h1, h2, h3⟩ := read?_eq_some.mp h
  refine read?_eq_some.mpr ⟨by omega, by simp; omega, fun k hk => ?_⟩
  rw [List.getElem?_take_of_lt hk, List.getElem?_drop, h3 _ (by omega)]
  congr 1
  omega

/-! ## Items -/

section Items

variable {β : Type} {w : Nat} {enc : β → List UInt8} {dec : List UInt8 → β}

@[simp] theorem length_pieces (w count : Nat) (bs : List UInt8) : (pieces w count bs).length = count := by
  induction count generalizing bs with
  | zero => rfl
  | succ count ih => simp [pieces, ih]

theorem length_flatMap_of_width {xs : List β} (h : ∀ x, (enc x).length = w) :
    (xs.flatMap enc).length = xs.length * w := by
  induction xs with
  | nil => simp
  | cons x xs ih => rw [List.flatMap_cons, List.length_append, ih, h, List.length_cons, Nat.succ_mul, Nat.add_comm]

theorem pieces_flatMap (xs : List β) (h : ∀ x, (enc x).length = w) :
    pieces w xs.length (xs.flatMap enc) = xs.map enc := by
  induction xs with
  | nil => rfl
  | cons x xs ih =>
    rw [List.length_cons, List.flatMap_cons, pieces, List.take_left' (h x), List.drop_left' (h x), ih, List.map_cons]

theorem pieces_run (w n i m : Nat) (bs : List UInt8) (h : i + m ≤ n) :
    pieces w m ((bs.drop (i * w)).take (m * w)) = ((pieces w n bs).drop i).take m := by
  induction i generalizing n bs with
  | zero =>
    rw [Nat.zero_mul, List.drop_zero, List.drop_zero]
    induction m generalizing n bs with
    | zero => rfl
    | succ m ih =>
      obtain ⟨n, rfl⟩ : ∃ n', n = n' + 1 := ⟨n - 1, by omega⟩
      rw [pieces, pieces, List.take_succ_cons, List.take_take, Nat.min_eq_left (by rw [Nat.succ_mul]; omega),
        List.drop_take, Nat.succ_mul, Nat.add_sub_cancel, ih n (bs.drop w) (by omega)]
  | succ i ih =>
    obtain ⟨n, rfl⟩ : ∃ n', n = n' + 1 := ⟨n - 1, by omega⟩
    have e : bs.drop ((i + 1) * w) = (bs.drop w).drop (i * w) := by
      rw [List.drop_drop, Nat.succ_mul, Nat.add_comm]
    rw [e, ih n (bs.drop w) (by omega), pieces, List.drop_succ_cons]

/-- The `count` items of `w` bytes from an offset on, each read by `dec`. -/
def items? (b : Block) (w : Nat) (dec : List UInt8 → β) (o count : Nat) : Option (List β) :=
  (b.read? o (count * w)).map fun bs => (pieces w count bs).map dec

theorem readWords?_eq (b : Block) (o count : Nat) :
    b.readWords? o count = b.items? Word.width Word.decode o count := rfl

theorem readNumbers?_eq {α : Type} [Stored α] (b : Block) (o count : Nat) :
    (b.readNumbers? o count : Option (List α)) = b.items? (Stored.width α) Stored.decode o count := rfl

theorem length_items? {o count : Nat} {xs : List β} (h : b.items? w dec o count = some xs) : xs.length = count := by
  obtain ⟨bs, -, rfl⟩ := Option.map_eq_some_iff.mp h
  rw [List.length_map, length_pieces]

theorem items?_isSome (dec : List UInt8 → β) {o count : Nat} (h : b.base + o + count * w ≤ b.size) :
    ∃ xs : List β, b.items? w dec o count = some xs := by
  obtain ⟨bs, hbs⟩ := read?_isSome h
  exact ⟨_, by rw [items?, hbs]; rfl⟩

theorem items_run {o n i m : Nat} {xs : List β} (h : b.items? w dec o n = some xs) (him : i + m ≤ n) :
    b.items? w dec (o + i * w) m = some ((xs.drop i).take m) := by
  obtain ⟨bs, hbs, rfl⟩ := Option.map_eq_some_iff.mp h
  have hle : i * w + m * w ≤ n * w := by
    rw [← Nat.add_mul]
    exact Nat.mul_le_mul_right w him
  rw [items?, read?_run hbs hle, Option.map_some, pieces_run w n i m bs him, List.map_take, List.map_drop]

theorem items_write?_self (dec : List UInt8 → β) {o : Nat} {xs : List β} (henc : ∀ x, (enc x).length = w)
    (h : b.write? o (xs.flatMap enc) = some b') :
    b'.items? w dec o xs.length = some (xs.map fun x => dec (enc x)) := by
  have hr := read?_write?_self h
  rw [length_flatMap_of_width henc] at hr
  rw [items?, hr, Option.map_some, pieces_flatMap xs henc, List.map_map]
  rfl

theorem items_congr {o n : Nat} (h : b'.read? o (n * w) = b.read? o (n * w)) :
    (b'.items? w dec o n : Option (List β)) = b.items? w dec o n := by
  rw [items?, items?, h]

theorem items_write?_apart (dec : List UInt8 → β) {o o' n : Nat} {bs : List UInt8} (h : b.write? o bs = some b')
    (hd : o' + n * w ≤ o ∨ o + bs.length ≤ o') : (b'.items? w dec o' n : Option (List β)) = b.items? w dec o' n :=
  items_congr (read?_write?_apart h hd)

/-! ## Single items -/

/-- Item `k` of a run is read from its own bytes. -/
theorem items_entry {o n : Nat} {xs : List β} (h : b.items? w dec o n = some xs) {k : Nat} (hk : k < n) :
    ∃ bs, b.read? (o + k * w) w = some bs ∧ xs[k]? = some (dec bs) := by
  have hrun := items_run (i := k) (m := 1) h (by omega)
  obtain ⟨bs, hbs, hx⟩ := Option.map_eq_some_iff.mp hrun
  rw [Nat.one_mul] at hbs
  have hlen : bs.length = w := (read?_eq_some.mp hbs).2.1
  have hl : k < xs.length := by rw [length_items? h]; exact hk
  rw [pieces, pieces, ← hlen, List.take_length, List.drop_eq_getElem_cons hl, List.take_succ_cons] at hx
  refine ⟨bs, hbs, ?_⟩
  rw [List.getElem?_eq_getElem hl]
  exact congrArg some (List.cons.inj hx).1.symm

/-- Byte `r` of item `k`. -/
theorem getElem?_flatMap {xs : List β} (h : ∀ x, (enc x).length = w) {k r : Nat} (hr : r < w) :
    (xs.flatMap enc)[k * w + r]? = xs[k]?.bind fun x => (enc x)[r]? := by
  induction xs generalizing k with
  | nil => simp
  | cons x xs ih =>
    rw [List.flatMap_cons]
    cases k with
    | zero => rw [Nat.zero_mul, Nat.zero_add, List.getElem?_append_left (by rw [h]; exact hr)]; rfl
    | succ k =>
      rw [List.getElem?_append_right (by rw [h, Nat.succ_mul]; omega), h, Nat.succ_mul,
        show k * w + w + r - w = k * w + r by omega, ih, List.getElem?_cons_succ]

/-- A write of items over items changes the bytes of those only that are others than before. -/
theorem write_items_frame {o n : Nat} {xs ys : List β} (hw : 0 < w) (henc : ∀ x, (enc x).length = w)
    (hdec : ∀ bs, bs.length = w → enc (dec bs) = bs) (hr : b.items? w dec o n = some xs) (hlen : ys.length = n)
    (h : b.write? o (ys.flatMap enc) = some b') {p : Nat}
    (hp : ∀ k < n, b.base + o + k * w ≤ p → p < b.base + o + k * w + w → ys[k]? = xs[k]?) :
    b'.bytes[p]? = b.bytes[p]? := by
  rw [getElem?_write? h, length_flatMap_of_width henc, hlen]
  split
  · rename_i hin
    -- `p` is byte `r` of item `k`
    obtain ⟨k, r, hrw, hpk⟩ : ∃ k r, r < w ∧ p = b.base + o + (k * w + r) :=
      ⟨(p - (b.base + o)) / w, (p - (b.base + o)) % w, Nat.mod_lt _ hw, by
        rw [Nat.mul_comm, Nat.div_add_mod]
        omega⟩
    subst hpk
    have hk : k < n := by
      refine Nat.lt_of_not_le fun hle => ?_
      have := Nat.mul_le_mul_right w hle
      omega
    obtain ⟨bs, hbs, hx⟩ := items_entry hr hk
    obtain ⟨-, hl, hget⟩ := read?_eq_some.mp hbs
    rw [show b.base + o + (k * w + r) - (b.base + o) = k * w + r by omega, getElem?_flatMap henc hrw,
      hp k hk (by omega) (by omega), hx, Option.bind_some, hdec bs hl, hget r hrw]
    congr 1
    omega
  · rfl

end Items

/-! ## Blocks that agree but for some bytes -/

/-- The two blocks have the same extent, and the same bytes outside `away`. -/
structure AgreeBut (away : Nat → Prop) (b b' : Block) : Prop where
  base : b'.base = b.base
  size : b'.size = b.size
  bytes : ∀ k, ¬ away k → b'.bytes[k]? = b.bytes[k]?

/-- The bytes of `n` from an offset on. -/
def within (b : Block) (o n k : Nat) : Prop := b.base + o ≤ k ∧ k < b.base + o + n

namespace AgreeBut

variable {away away' : Nat → Prop}

theorem refl (b : Block) : AgreeBut away b b := ⟨rfl, rfl, fun _ _ => rfl⟩

theorem trans {b₁ b₂ b₃ : Block} (h : AgreeBut away b₁ b₂) (h' : AgreeBut away b₂ b₃) : AgreeBut away b₁ b₃ :=
  ⟨h'.base.trans h.base, h'.size.trans h.size, fun k hk => (h'.bytes k hk).trans (h.bytes k hk)⟩

theorem mono (h : AgreeBut away b b') (hsub : ∀ k, away k → away' k) : AgreeBut away' b b' :=
  ⟨h.base, h.size, fun k hk => h.bytes k fun ha => hk (hsub k ha)⟩

theorem eq (h : AgreeBut away b b') (hnone : ∀ k, ¬ away k) : b' = b := by
  obtain ⟨bytes, base⟩ := b
  obtain ⟨bytes', base'⟩ := b'
  have hbytes : bytes' = bytes := Array.ext_getElem? fun k => h.bytes k (hnone k)
  have hbase : base' = base := h.base
  rw [hbytes, hbase]

/-- A write changes its range. -/
theorem of_write {o : Nat} {bs : List UInt8} (h : b.write? o bs = some b') : AgreeBut (b.within o bs.length) b b' :=
  ⟨base_write? h, size_write? h, fun k hk => (getElem?_write? h k).trans (if_neg hk)⟩

/-- The same write on both settles the bytes of its range. -/
theorem write {o : Nat} {bs : List UInt8} {c c' : Block} (h : AgreeBut away b b') (hc : b.write? o bs = some c)
    (hc' : b'.write? o bs = some c') : AgreeBut (fun k => away k ∧ ¬ b.within o bs.length k) c c' := by
  refine ⟨?_, ?_, fun k hk => ?_⟩
  · rw [base_write? hc, base_write? hc', h.base]
  · rw [size_write? hc, size_write? hc', h.size]
  · rw [getElem?_write? hc, getElem?_write? hc', h.base]
    split
    · rfl
    · rename_i hout
      exact h.bytes k fun ha => hk ⟨ha, hout⟩

/-- A write fits both or neither. -/
theorem write?_isSome (h : AgreeBut away b b') {o : Nat} {bs : List UInt8} :
    (b'.write? o bs).isSome = (b.write? o bs).isSome := by
  unfold write?
  simp only [h.base, h.size]
  split <;> rfl

end AgreeBut

end Block

end HorizonQp
