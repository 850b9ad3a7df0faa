/-
  HorizonQp.Proofs.Qp.Store — storing a field in the array of its stage.

  A matrix slot is a rectangle of the array (`MatSlot.Covers`), a vector slot a run of it.
  Storing changes no entry outside (`getElem?_store_apart`, `getElem?_store?_apart`), and
  loading gives what was stored: in the same order the same list (`load_store`), in the
  other the same entries (`load_store_entry`), and negated entries with their own sign
  (`load?_store?`). Loading reads no entry outside either (`load_congr`, `load?_congr`).
-/

import HorizonQp.Proofs.Linear.Entries
import HorizonQp.Qp.Slot

namespace HorizonQp

open Linear (Matrix Order)

namespace MatSlot

variable {α : Type} {s : MatSlot}

/-! ## The rectangle -/

/-- The place `(r, c)` of the array belongs to the slot. -/
def Covers (s : MatSlot) (r c : Nat) : Prop :=
  (s.row0 ≤ r ∧ r < s.row0 + s.height) ∧ s.col0 ≤ c ∧ c < s.col0 + s.width

theorem covers_blockEntry {i j : Nat} (hi : i < s.rows) (hj : j < s.cols) :
    s.Covers (s.blockEntry i j).1 (s.blockEntry i j).2 := by
  unfold Covers blockEntry height width
  cases s.transposed <;> simp [hi, hj]

theorem userEntry?_eq_none {r c : Nat} (h : ¬ s.Covers r c) : s.userEntry? r c = none := by
  cases hu : s.userEntry? r c with
  | none => rfl
  | some p =>
    obtain ⟨he, hi, hj⟩ := blockEntry_of_userEntry? hu
    have hc := covers_blockEntry hi hj
    rw [he] at hc
    exact absurd hc h

theorem Covers.lt {r c m n : Nat} (h : s.Covers r c) (hf : s.Fits m n) : r < m ∧ c < n := by
  obtain ⟨⟨-, hr⟩, -, hc⟩ := h
  obtain ⟨hm, hn⟩ := hf
  omega

/-! ## Storing and loading -/

variable {order : Order} {data : List α} {M M' : Matrix α}

theorem store?_eq_some {ys : List α} :
    s.store? order data M = some ys ↔
      (s.Fits M.rows M.cols ∧ s.rows * s.cols = data.length) ∧ s.store order data M = ys := by
  rw [store?, Option.ite_none_right_eq_some, Option.some.injEq]

@[simp] theorem length_store : (s.store order data M).length = M.data.length := by simp [store]

/-- What is not of the slot is kept. -/
theorem getElem?_store_apart {k : Nat} (h : ¬ s.Covers (k % M.rows) (k / M.rows)) :
    (s.store order data M)[k]? = M.data[k]? := by
  rw [store, List.getElem?_mapIdx, userEntry?_eq_none h]
  simp

/-- Entry `(i, j)` of the field stands at its place of the array. -/
theorem getElem?_store {i j : Nat} (hM : M.WellShaped) (hf : s.Fits M.rows M.cols)
    (hlen : s.rows * s.cols = data.length) (hi : i < s.rows) (hj : j < s.cols) :
    (s.store order data M)[M.index (s.blockEntry i j).1 (s.blockEntry i j).2]? =
      data[order.index s.rows s.cols i j]? := by
  obtain ⟨hr, hc⟩ := (covers_blockEntry hi hj).lt hf
  have hk := Matrix.index_lt hM hr hc
  have hd : order.index s.rows s.cols i j < data.length := hlen ▸ order.index_lt hi hj
  rw [store, List.getElem?_mapIdx, List.getElem?_eq_getElem hk, Option.map_some, Matrix.mod_index hr, Matrix.div_index hr,
    userEntry?_blockEntry hi hj]
  simp only [List.getD_eq_getElem?_getD, List.getElem?_eq_getElem hd, Option.getD_some]

variable [Zero α]

@[simp] theorem length_load : (s.load order M).length = s.rows * s.cols := by simp [load]

theorem getElem?_load {k : Nat} (hk : k < s.rows * s.cols) :
    (s.load order M)[k]? = some (M.entry
      (s.blockEntry (order.coords s.rows s.cols k).1 (order.coords s.rows s.cols k).2).1
      (s.blockEntry (order.coords s.rows s.cols k).1 (order.coords s.rows s.cols k).2).2) := by
  rw [load, List.getElem?_map, List.getElem?_range hk]
  rfl

/-- Loading reads the entries of the slot and no other. -/
theorem load_congr (hrows : M'.rows = M.rows)
    (h : ∀ r c, s.Covers r c → M'.data[M.index r c]? = M.data[M.index r c]?) : s.load order M' = s.load order M := by
  apply List.ext_getElem?
  intro k
  by_cases hk : k < s.rows * s.cols
  · obtain ⟨hi, hj⟩ := order.coords_lt hk
    have he := h _ _ (covers_blockEntry hi hj)
    rw [getElem?_load hk, getElem?_load hk, Matrix.entry_eq, Matrix.entry_eq, Matrix.index, hrows, ← Matrix.index, he]
  · rw [List.getElem?_eq_none (by simp; omega), List.getElem?_eq_none (by simp; omega)]

theorem load?_eq (hf : s.Fits M.rows M.cols) : s.load? order M = some (s.load order M) := if_pos hf

theorem load?_congr (hrows : M'.rows = M.rows) (hcols : M'.cols = M.cols)
    (h : ∀ r c, s.Covers r c → M'.data[M.index r c]? = M.data[M.index r c]?) : s.load? order M' = s.load? order M := by
  rw [load?, load?, hrows, hcols, load_congr hrows h]

section LoadStore

variable (hM : M.WellShaped) (hf : s.Fits M.rows M.cols) (hlen : s.rows * s.cols = data.length)
include hM hf hlen

/-- What is loaded has the entries that were stored, in whichever order. -/
theorem load_store_entry (order' : Order) {i j : Nat} (hi : i < s.rows) (hj : j < s.cols) :
    (s.load order' (M.withData (s.store order data M)))[order'.index s.rows s.cols i j]? =
      data[order.index s.rows s.cols i j]? := by
  have hd : order.index s.rows s.cols i j < data.length := hlen ▸ order.index_lt hi hj
  rw [getElem?_load (order'.index_lt hi hj), order'.coords_index hi hj, Matrix.entry_eq]
  refine (congrArg (fun o : Option α => some (o.getD 0)) (getElem?_store hM hf hlen hi hj)).trans ?_
  rw [List.getElem?_eq_getElem hd, Option.getD_some]

/-- In the order it was stored in, the same list is loaded. -/
theorem load_store : s.load order (M.withData (s.store order data M)) = data := by
  apply List.ext_getElem?
  intro k
  by_cases hk : k < s.rows * s.cols
  · obtain ⟨hi, hj⟩ := order.coords_lt hk
    rw [← order.index_coords s.rows s.cols k]
    exact load_store_entry hM hf hlen order hi hj
  · rw [List.getElem?_eq_none (by simp; omega), List.getElem?_eq_none (by omega)]

end LoadStore

end MatSlot

namespace VecSlot

variable {α : Type} [Neg α] {s : VecSlot} {data x x' y : List α}

/-- What is stored of a field. -/
def held (s : VecSlot) (data : List α) : List α := if s.negated then data.map (- ·) else data

@[simp] theorem length_held : (s.held data).length = data.length := by
  unfold held
  split <;> simp

theorem held_held (hneg : ∀ a : α, - -a = a) : s.held (s.held data) = data := by
  unfold held
  split
  · rw [List.map_map]
    exact (List.map_congr_left fun a _ => hneg a).trans (List.map_id' data)
  · rfl

theorem store?_eq_some :
    s.store? data x = some y ↔
      (s.offset + s.len ≤ x.length ∧ s.len = data.length) ∧
        x.take s.offset ++ s.held data ++ x.drop (s.offset + s.len) = y := by
  show (if s.offset + s.len ≤ x.length ∧ s.len = data.length then
    some (x.take s.offset ++ s.held data ++ x.drop (s.offset + s.len)) else none) = some y ↔ _
  rw [Option.ite_none_right_eq_some, Option.some.injEq]

theorem load?_eq (h : s.offset + s.len ≤ x.length) : s.load? x = some (s.held ((x.drop s.offset).take s.len)) := by
  rw [load?, if_pos h]
  rfl

section Stored

variable (h : s.store? data x = some y)
include h

theorem length_store? : y.length = x.length := by
  obtain ⟨⟨hle, hlen⟩, rfl⟩ := store?_eq_some.mp h
  rw [List.length_append, List.length_append, List.length_take, List.length_drop, length_held]
  omega

/-- What is not of the slot is kept. -/
theorem getElem?_store?_apart {k : Nat} (hk : ¬ (s.offset ≤ k ∧ k < s.offset + s.len)) : y[k]? = x[k]? := by
  obtain ⟨⟨hle, hlen⟩, rfl⟩ := store?_eq_some.mp h
  have hl : (x.take s.offset).length = s.offset := by rw [List.length_take]; omega
  by_cases h1 : k < s.offset
  · rw [List.append_assoc, List.getElem?_append_left (by omega), List.getElem?_take_of_lt h1]
  · rw [List.getElem?_append_right (by rw [List.length_append, hl, length_held]; omega), List.length_append, hl, length_held,
      List.getElem?_drop]
    congr 1
    omega

theorem drop_take_store? : (y.drop s.offset).take s.len = s.held data := by
  obtain ⟨⟨hle, hlen⟩, rfl⟩ := store?_eq_some.mp h
  have hl : (x.take s.offset).length = s.offset := by rw [List.length_take]; omega
  rw [List.append_assoc, List.drop_left' hl, List.take_left' (by rw [length_held, hlen])]

/-- What was stored is loaded, with its own sign. -/
theorem load?_store? (hneg : ∀ a : α, - -a = a) : s.load? y = some data := by
  have hle := (store?_eq_some.mp h).1.1
  rw [load?_eq (by rw [length_store? h]; exact hle), drop_take_store? h, held_held hneg]

end Stored

/-- Loading reads the entries of the slot and no other. -/
theorem load?_congr (hl : x'.length = x.length) (h : ∀ k, s.offset ≤ k → k < s.offset + s.len → x'[k]? = x[k]?) :
    s.load? x' = s.load? x := by
  have hd : (x'.drop s.offset).take s.len = (x.drop s.offset).take s.len := by
    apply List.ext_getElem?
    intro k
    by_cases hk : k < s.len
    · rw [List.getElem?_take_of_lt hk, List.getElem?_take_of_lt hk, List.getElem?_drop, List.getElem?_drop,
        h _ (by omega) (by omega)]
    · rw [List.getElem?_eq_none (by simp; omega), List.getElem?_eq_none (by simp; omega)]
  by_cases hle : s.offset + s.len ≤ x.length
  · rw [load?_eq hle, load?_eq (by omega), hd]
  · rw [load?, load?, if_neg hle, if_neg (by omega)]

end VecSlot

end HorizonQp
