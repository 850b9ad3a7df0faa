/-
  HorizonQp.Proofs.Qp.Bound — a bound problem and the views of its arrays.

  `Qp.Laid` is the invariant of a problem in its block: dimensions with the counts of every
  stage, a layout that is sound for them, and a block that holds the layout's headers.
  `Qp.Bound` adds that the dimensions are consistent, which the views do not depend on: a
  laid problem's headers read from the block are those of the places of its arrays
  (`matHeader?_eq`, `vecHeader?_eq`, `idxHeader?_eq`), so a view is the run of items at that
  place (`matrix?_eq`, `vector?_eq`, `indices?_eq`) and is there for every stage that has
  the array.

  A write over a view replaces the bytes of one array (`Wrote`). It keeps the invariant
  (`Wrote.laid`), shows in the view it was made over and in no other.
-/

import HorizonQp.Proofs.Qp.Headers

namespace HorizonQp

open Linear (Matrix)

namespace Qp

variable {α : Type} [Stored α]

/-- A problem in its block, whatever its dimensions say beyond the counts of every stage. -/
structure Laid (q : Qp α) : Prop where
  spans : q.dims.Spanned
  layout : q.layout.Sound (Stored.width α) q.dims
  held : q.layout.HeldBy q.block

/-- A problem of consistent dimensions in its block. -/
structure Bound (q : Qp α) : Prop extends q.Laid where
  dims : q.dims.Consistent

/-- Where the array of a kind at stage `i` starts. -/
def placeOf (q : Qp α) (kind : RegionKind) (i : Nat) : Nat := q.layout.offsetOf (Stored.width α) q.dims kind i

/-- The bytes of the array of a kind at stage `i`. -/
def bytesOf (q : Qp α) (kind : RegionKind) (i : Nat) : Nat := kind.bytes (Stored.width α) q.dims i

/-! ## Headers in the block -/

/-- The items of item `k` of a run. -/
theorem flatMap_run {H : Type} {words : H → List Nat} {w : Nat} (hw : ∀ x, (words x).length = w) {hs : List H} {k : Nat}
    {h : H} (hk : hs[k]? = some h) : ((hs.flatMap words).drop (k * w)).take w = words h := by
  induction hs generalizing k with
  | nil => cases hk
  | cons x hs ih =>
    rw [List.flatMap_cons]
    cases k with
    | zero =>
      cases hk
      rw [Nat.zero_mul, List.drop_zero, List.take_left' (hw _)]
    | succ k =>
      rw [Nat.succ_mul, Nat.add_comm, ← List.drop_drop, List.drop_left' (hw x)]
      exact ih hk

section Tables

omit [Stored α]
variable {H : Type} {kind : RegionKind} (words : H → List Nat) (ofWords? : List Nat → Option H) {w : Nat} {hs : List H}

/-- The words of header `k`, in a table that the block holds. -/
theorem readWords?_table {q : Qp α} (hw : ∀ x, (words x).length = w)
    (ht : q.block.readWords? (q.layout.region kind).offset (hs.flatMap words).length = some (hs.flatMap words))
    {k : Nat} {h : H}
    (hk : hs[k]? = some h) :
    q.block.readWords? ((q.layout.region kind).offset + k * (w * Word.width)) w = some (words h) := by
  have hlt : k < hs.length := (List.getElem?_eq_some_iff.mp hk).1
  have hlen := Layout.words_length hw hs
  have hle : k * w + w ≤ (hs.flatMap words).length := by
    rw [hlen, ← Nat.succ_mul]
    exact Nat.mul_le_mul_right w hlt
  have hrun := Block.items_run (i := k * w) (m := w) ht hle
  rw [flatMap_run hw hk, Nat.mul_assoc] at hrun
  exact hrun

/-- A header looked up in the block is that of the table the block holds. -/
theorem header?_of_table {q : Qp α} (hw : ∀ x, (words x).length = w) (ho : ∀ x, ofWords? (words x) = some x)
    (hroom : (q.layout.region kind).len = hs.length * (w * Word.width))
    (ht : q.block.readWords? (q.layout.region kind).offset (hs.flatMap words).length = some (hs.flatMap words))
    {k : Nat} {h : H}
    (hk : hs[k]? = some h) : q.header? kind (w * Word.width) ofWords? k = some h := by
  have hlt : k < hs.length := (List.getElem?_eq_some_iff.mp hk).1
  have hle : (k + 1) * (w * Word.width) ≤ (q.layout.region kind).len := by
    rw [hroom]
    exact Nat.mul_le_mul_right _ hlt
  have hdiv : w * Word.width / Word.width = w := Nat.mul_div_cancel w (by decide)
  unfold header?
  simp only [hdiv, if_pos hle, readWords?_table words hw ht hk, Option.bind_eq_bind, Option.bind_some, ho]

/-- The header of an array that only some stages have. -/
theorem lookup_of_table {q : Qp α} (hw : ∀ x, (words x).length = w) (ho : ∀ x, ofWords? (words x) = some x)
    (hroom : (q.layout.region kind).len = hs.length * (w * Word.width))
    (ht : q.block.readWords? (q.layout.region kind).offset (hs.flatMap words).length = some (hs.flatMap words))
    {index? : Option Nat} {present : Prop} [Decidable present] {place : Nat}
    (hindex : ∀ {k}, index? = some k ↔ present ∧ place = k) {x : H} (hx : index? = some place → hs[place]? = some x) :
    (index?.bind fun k => q.header? kind (w * Word.width) ofWords? k) = if present then some x else none := by
  split
  · rename_i hp
    have hk := hindex.mpr ⟨hp, rfl⟩
    rw [hk, Option.bind_some]
    exact header?_of_table words ofWords? hw ho hroom ht (hx hk)
  · rename_i hp
    cases hk : index? with
    | none => rfl
    | some k => exact absurd (hindex.mp hk).1 hp

/-- The whole table, read from the block. -/
theorem table?_of_table {q : Qp α} (hw : ∀ x, (words x).length = w) (hpos : 0 < w)
    (ho : ∀ x, ofWords? (words x) = some x)
    (hroom : (q.layout.region kind).len = hs.length * (w * Word.width))
    (ht : q.block.readWords? (q.layout.region kind).offset (hs.flatMap words).length = some (hs.flatMap words)) :
    q.table? kind (w * Word.width) ofWords? = some hs := by
  have hdiv : w * Word.width / Word.width = w := Nat.mul_div_cancel w (by decide)
  have hcount : (q.layout.region kind).len / (w * Word.width) = hs.length := by
    rw [hroom]
    exact Nat.mul_div_cancel _ (Nat.mul_pos hpos (by decide))
  have step : ∀ n ≤ hs.length, (List.range n).mapM (fun k => do
      ofWords? (← q.block.readWords? ((q.layout.region kind).offset + k * (w * Word.width)) w)) = some (hs.take n) := by
    intro n hn
    induction n with
    | zero => rfl
    | succ n ih =>
      obtain ⟨h, hh⟩ : ∃ h, hs[n]? = some h := ⟨hs[n], List.getElem?_eq_getElem (by omega)⟩
      rw [List.range_succ, List.mapM_append, ih (by omega), List.take_add_one, hh]
      simp [readWords?_table words hw ht hh, ho]
  unfold table?
  simp only [hcount, hdiv]
  rw [step hs.length (Nat.le_refl _), List.take_length]

end Tables

namespace Laid

variable {q : Qp α} (h : q.Laid)
include h

theorem idx_room : (q.layout.region .idxHeaders).len = q.layout.idxHeaders.length * IdxHeader.width := by
  rw [h.layout.idxRoom, h.layout.idxHeaders, Layout.length_idxTable]

theorem mat_room : (q.layout.region .matHeaders).len = q.layout.matHeaders.length * MatHeader.width := by
  rw [h.layout.matRoom, h.layout.matHeaders, Layout.length_matTable]

theorem vec_room : (q.layout.region .vecHeaders).len = q.layout.vecHeaders.length * VecHeader.width := by
  rw [h.layout.vecRoom, h.layout.vecHeaders, Layout.length_vecTable]

/-- The tables in the block are the layout's. -/
theorem tables : q.idxHeaders? = some q.layout.idxHeaders ∧ q.matHeaders? = some q.layout.matHeaders ∧
    q.vecHeaders? = some q.layout.vecHeaders :=
  ⟨table?_of_table IdxHeader.words IdxHeader.ofWords? (fun _ => rfl) (by decide) (fun _ => rfl) h.idx_room h.held.idx,
    table?_of_table MatHeader.words MatHeader.ofWords? (fun _ => rfl) (by decide) (fun _ => rfl) h.mat_room h.held.mat,
    table?_of_table VecHeader.words VecHeader.ofWords? (fun _ => rfl) (by decide) (fun _ => rfl) h.vec_room h.held.vec⟩

theorem idxHeader?_eq (block : IdxBlock) (i : Nat) :
    q.idxHeader? block i =
      if i < block.region.count q.dims.N then some ⟨q.placeOf block.region i, block.len q.dims i⟩ else none := by
  unfold idxHeader?
  refine lookup_of_table IdxHeader.words IdxHeader.ofWords? (fun _ => rfl) (fun _ => rfl) h.idx_room h.held.idx
    IdxBlock.headerIndex?_eq_some fun hk => ?_
  rw [h.layout.idxHeaders]
  exact q.layout.idxTable_header (Stored.width α) q.dims hk

theorem matHeader?_eq (block : MatBlock) (i : Nat) :
    q.matHeader? block i =
      if i < block.region.count q.dims.N then
        some ⟨(block.shape q.dims i).1, (block.shape q.dims i).2, q.placeOf block.region i,
          block.region.stride (Stored.width α) q.dims i⟩
      else none := by
  unfold matHeader?
  refine lookup_of_table MatHeader.words MatHeader.ofWords? (fun _ => rfl) (fun _ => rfl) h.mat_room h.held.mat
    MatBlock.headerIndex?_eq_some fun hk => ?_
  rw [h.layout.matHeaders]
  exact q.layout.matTable_header (Stored.width α) q.dims hk

theorem vecHeader?_eq (block : VecBlock) (i : Nat) :
    q.vecHeader? block i =
      if i < block.region.count q.dims.N then
        some ⟨block.len q.dims i, q.placeOf block.region i, block.region.stride (Stored.width α) q.dims i⟩
      else none := by
  unfold vecHeader?
  refine lookup_of_table VecHeader.words VecHeader.ofWords? (fun _ => rfl) (fun _ => rfl) h.vec_room h.held.vec
    VecBlock.headerIndex?_eq_some fun hk => ?_
  rw [h.layout.vecHeaders]
  exact q.layout.vecTable_header (Stored.width α) q.dims hk

/-! ## Views -/

theorem room : q.block.base + q.layout.used ≤ q.block.size := h.held.room

/-- The bytes of an array are bytes of the block. -/
theorem array_room {kind : RegionKind} {i : Nat} (hi : i < kind.count q.dims.N) :
    q.block.base + q.placeOf kind i + q.bytesOf kind i ≤ q.block.size := by
  have h1 := h.room
  have h2 := (h.layout.array_inside hi).2
  have h3 := h.layout.region_inside kind
  have h4 := kind.bytes_le_stride (Stored.width α) q.dims i
  unfold placeOf bytesOf
  omega

end Laid

/-- The numbers of the array of a kind at stage `i`. -/
def numbers (q : Qp α) (kind : RegionKind) (i : Nat) : List α :=
  (q.block.readNumbers? (q.placeOf kind i) (kind.entries q.dims i)).getD []

/-- The words of the array of a kind at stage `i`. -/
def words (q : Qp α) (kind : RegionKind) (i : Nat) : List Nat :=
  (q.block.readWords? (q.placeOf kind i) (kind.entries q.dims i)).getD []

/-- The matrix at stage `i`. -/
def matrixAt (q : Qp α) (block : MatBlock) (i : Nat) : Matrix α :=
  ⟨(block.shape q.dims i).1, (block.shape q.dims i).2, q.numbers block.region i⟩

namespace Laid

variable {q : Qp α} (h : q.Laid)
include h

theorem readNumbers?_array {kind : RegionKind} (hf : kind.isFloat = true) {i : Nat} (hi : i < kind.count q.dims.N) :
    q.block.readNumbers? (q.placeOf kind i) (kind.entries q.dims i) = some (q.numbers kind i) := by
  have hroom := h.array_room hi
  rw [bytesOf, RegionKind.bytes, RegionKind.entryWidth, if_pos hf] at hroom
  obtain ⟨xs, hxs⟩ := Block.items?_isSome (Stored.decode : List UInt8 → α) hroom
  rw [← Block.readNumbers?_eq] at hxs
  rw [numbers, hxs, Option.getD_some]

theorem readWords?_array {kind : RegionKind} (hf : kind.isFloat = false) {i : Nat} (hi : i < kind.count q.dims.N) :
    q.block.readWords? (q.placeOf kind i) (kind.entries q.dims i) = some (q.words kind i) := by
  have hroom := h.array_room hi
  rw [bytesOf, RegionKind.bytes, RegionKind.entryWidth, if_neg (by simp [hf])] at hroom
  obtain ⟨xs, hxs⟩ := Block.items?_isSome Word.decode hroom
  rw [← Block.readWords?_eq] at hxs
  rw [words, hxs, Option.getD_some]

theorem length_numbers {kind : RegionKind} (hf : kind.isFloat = true) {i : Nat} (hi : i < kind.count q.dims.N) :
    (q.numbers kind i).length = kind.entries q.dims i := by
  have hr := h.readNumbers?_array hf hi
  rw [Block.readNumbers?_eq] at hr
  exact Block.length_items? hr

theorem length_words {kind : RegionKind} (hf : kind.isFloat = false) {i : Nat} (hi : i < kind.count q.dims.N) :
    (q.words kind i).length = kind.entries q.dims i := by
  have hr := h.readWords?_array hf hi
  rw [Block.readWords?_eq] at hr
  exact Block.length_items? hr

/-- A matrix is there at every stage that has it, with the shape the dimensions say. -/
theorem matrix?_eq (block : MatBlock) (i : Nat) :
    q.matrix? block i =
      if i < block.region.count q.dims.N then some (q.matrixAt block i) else none := by
  rw [matrix?, h.matHeader?_eq]
  split
  · rename_i hi
    have hr := h.readNumbers?_array block.isFloat_region hi
    rw [MatBlock.entries_region] at hr
    simp only [Option.bind_eq_bind, Option.bind_some, hr]
    rfl
  · rfl

theorem matrixAt_wellShaped {block : MatBlock} {i : Nat} (hi : i < block.region.count q.dims.N) :
    (q.matrixAt block i).WellShaped := by
  have hl := h.length_numbers block.isFloat_region hi
  rwa [block.entries_region] at hl

theorem vector?_eq (block : VecBlock) (i : Nat) :
    q.vector? block i = if i < block.region.count q.dims.N then some (q.numbers block.region i) else none := by
  rw [vector?, h.vecHeader?_eq]
  split
  · rename_i hi
    have hr := h.readNumbers?_array block.isFloat_region hi
    rw [VecBlock.entries_region] at hr
    simp only [Option.bind_eq_bind, Option.bind_some, hr]
  · rfl

theorem indices?_eq (block : IdxBlock) (i : Nat) :
    q.indices? block i = if i < block.region.count q.dims.N then some (q.words block.region i) else none := by
  rw [indices?, h.idxHeader?_eq]
  split
  · rename_i hi
    have hr := h.readWords?_array block.isFloat_region hi
    rw [IdxBlock.entries_region] at hr
    simp only [Option.bind_eq_bind, Option.bind_some, hr]
  · rfl

end Laid

/-! ## Writes over a view -/

/-- `q'` is `q` with the bytes of one array replaced. -/
structure Wrote (q q' : Qp α) (kind : RegionKind) (i : Nat) (bs : List UInt8) : Prop where
  stage : i < kind.count q.dims.N
  dims : q'.dims = q.dims
  layout : q'.layout = q.layout
  length : bs.length = q.bytesOf kind i
  block : q.block.write? (q.placeOf kind i) bs = some q'.block

namespace Wrote

variable {q q' : Qp α} {kind : RegionKind} {i : Nat} {bs : List UInt8} (w : q.Wrote q' kind i bs)
include w

theorem placeOf_eq (kind' : RegionKind) (j : Nat) : q'.placeOf kind' j = q.placeOf kind' j := by
  unfold placeOf
  rw [w.dims, w.layout]

theorem laid (h : q.Laid) : q'.Laid := by
  refine ⟨w.dims ▸ h.spans, by rw [w.dims, w.layout]; exact h.layout, ?_⟩
  rw [w.layout]
  refine h.held.write h.layout w.block fun kind' hk => ?_
  -- the tables have no arrays, so their regions are not that of `kind`
  have hne : kind' ≠ kind := by
    have := w.stage
    rintro rfl
    rcases hk with rfl | rfl | rfl <;> exact absurd this (Nat.not_lt_zero _)
  have h1 := h.layout.region_apart hne
  have h2 := h.layout.array_inside w.stage
  have h3 := kind.bytes_le_stride (Stored.width α) q.dims i
  have h4 := w.length
  unfold placeOf
  unfold bytesOf at h4
  omega

theorem bound (h : q.Bound) : q'.Bound := ⟨w.laid h.toLaid, w.dims ▸ h.dims⟩

/-- What was written is read back. -/
theorem numbers_self [FixedWidth α] {xs : List α} (hbs : bs = xs.flatMap Stored.encode)
    (hlen : xs.length = kind.entries q.dims i) : q'.numbers kind i = xs.map fun x => Stored.decode (Stored.encode x) := by
  subst hbs
  have hr := Block.items_write?_self (Stored.decode : List UInt8 → α) FixedWidth.length_encode w.block
  rw [numbers, w.placeOf_eq, w.dims, ← hlen, Block.readNumbers?_eq, hr, Option.getD_some]

theorem words_self {ns : List Nat} (hbs : bs = ns.flatMap Word.encode) (hlen : ns.length = kind.entries q.dims i) :
    q'.words kind i = ns.map fun n => Word.decode (Word.encode n) := by
  subst hbs
  have hr := Block.items_write?_self Word.decode Layout.encode_length w.block
  rw [words, w.placeOf_eq, w.dims, ← hlen, Block.readWords?_eq, hr, Option.getD_some]

/-- The bytes of every other array are as before. -/
theorem read_apart (h : q.Laid) {kind' : RegionKind} {j : Nat} (hj : j < kind'.count q.dims.N)
    (hne : (kind', j) ≠ (kind, i)) :
    q'.block.read? (q.placeOf kind' j) (q.bytesOf kind' j) = q.block.read? (q.placeOf kind' j) (q.bytesOf kind' j) := by
  have hd := h.layout.array_apart hj w.stage hne
  have hl := w.length
  refine Block.read?_write?_apart w.block ?_
  unfold placeOf bytesOf at *
  omega

theorem numbers_apart (h : q.Laid) {kind' : RegionKind} {j : Nat} (hf : kind'.isFloat = true)
    (hj : j < kind'.count q.dims.N) (hne : (kind', j) ≠ (kind, i)) : q'.numbers kind' j = q.numbers kind' j := by
  have hr := w.read_apart h hj hne
  rw [bytesOf, RegionKind.bytes, RegionKind.entryWidth, if_pos hf] at hr
  rw [numbers, numbers, w.placeOf_eq, w.dims, Block.readNumbers?_eq, Block.readNumbers?_eq, Block.items_congr hr]

theorem words_apart (h : q.Laid) {kind' : RegionKind} {j : Nat} (hf : kind'.isFloat = false)
    (hj : j < kind'.count q.dims.N) (hne : (kind', j) ≠ (kind, i)) : q'.words kind' j = q.words kind' j := by
  have hr := w.read_apart h hj hne
  rw [bytesOf, RegionKind.bytes, RegionKind.entryWidth, if_neg (by simp [hf])] at hr
  rw [words, words, w.placeOf_eq, w.dims, Block.readWords?_eq, Block.readWords?_eq, Block.items_congr hr]

end Wrote

/-- Replacing the bytes of an array by as many others. -/
theorem write?_wrote {q q' : Qp α} {kind : RegionKind} {i : Nat} {bs : List UInt8} (hi : i < kind.count q.dims.N)
    (hlen : bs.length = q.bytesOf kind i) :
    ((q.block.write? (q.placeOf kind i) bs).bind fun b => some { q with block := b }) = some q' ↔ q.Wrote q' kind i bs := by
  rw [Option.bind_eq_some_iff]
  constructor
  · intro h
    rcases h with ⟨b, hb, h⟩
    cases h
    exact ⟨hi, rfl, rfl, hlen, hb⟩
  · intro w
    exact ⟨q'.block, w.block, by rw [← w.dims, ← w.layout]⟩

/-- A write that goes by the header of an array and asks first whether the data fit it. -/
theorem guarded_wrote {q q' : Qp α} {kind : RegionKind} {i : Nat} {bs : List UInt8} {H : Type} {x : H}
    {f : H → Option (Qp α)} {fits : Prop} [Decidable fits] (hb : fits → bs.length = q.bytesOf kind i)
    (hf : f x =
      if fits then (q.block.write? (q.placeOf kind i) bs).bind fun b => some { q with block := b } else none) :
    (if i < kind.count q.dims.N then some x else none).bind f = some q' ↔ fits ∧ q.Wrote q' kind i bs := by
  by_cases hi : i < kind.count q.dims.N
  · rw [if_pos hi, Option.bind_some, hf]
    by_cases hfit : fits
    · rw [if_pos hfit, write?_wrote hi (hb hfit), and_iff_right hfit]
    · rw [if_neg hfit]
      simp only [reduceCtorEq, hfit, false_and]
  · rw [if_neg hi]
    constructor
    · intro h
      cases h
    · intro h
      exact absurd h.2.stage hi

/-- Bytes in the number of an array's can be written over it. -/
theorem Laid.exists_wrote {q : Qp α} (h : q.Laid) {kind : RegionKind} {i : Nat} (hi : i < kind.count q.dims.N)
    {bs : List UInt8} (hlen : bs.length = q.bytesOf kind i) : ∃ q', q.Wrote q' kind i bs := by
  obtain ⟨b, hb⟩ := Block.write?_isSome (hlen ▸ h.array_room hi)
  exact ⟨{ q with block := b }, hi, rfl, rfl, hlen, hb⟩

theorem length_encoded [FixedWidth α] {q : Qp α} {kind : RegionKind} (hf : kind.isFloat = true) {i : Nat} {data : List α}
    (hlen : data.length = kind.entries q.dims i) : (data.flatMap Stored.encode).length = q.bytesOf kind i := by
  rw [Block.length_flatMap_of_width FixedWidth.length_encode, hlen, bytesOf, RegionKind.bytes, RegionKind.entryWidth,
    if_pos hf]

namespace Laid

variable {q : Qp α} (h : q.Laid)
include h

/-- A write over a matrix replaces its bytes by those of its new entries. -/
theorem writeMatrix?_eq_some [FixedWidth α] {q' : Qp α} {block : MatBlock} {i : Nat} {data : List α} :
    q.writeMatrix? block i data = some q' ↔
      data.length = (block.shape q.dims i).1 * (block.shape q.dims i).2 ∧
        q.Wrote q' block.region i (data.flatMap Stored.encode) := by
  rw [writeMatrix?, h.matHeader?_eq, Option.bind_eq_bind]
  refine guarded_wrote (fun hlen => ?_) rfl
  exact length_encoded block.isFloat_region (by rw [hlen, block.entries_region])

theorem writeVector?_eq_some [FixedWidth α] {q' : Qp α} {block : VecBlock} {i : Nat} {data : List α} :
    q.writeVector? block i data = some q' ↔
      data.length = block.len q.dims i ∧ q.Wrote q' block.region i (data.flatMap Stored.encode) := by
  rw [writeVector?, h.vecHeader?_eq, Option.bind_eq_bind]
  refine guarded_wrote (fun hlen => ?_) rfl
  exact length_encoded block.isFloat_region (by rw [hlen, block.entries_region])

theorem writeIndices?_eq_some {q' : Qp α} {block : IdxBlock} {i : Nat} {data : List Nat} :
    q.writeIndices? block i data = some q' ↔
      data.length = block.len q.dims i ∧ q.Wrote q' block.region i (data.flatMap Word.encode) := by
  rw [writeIndices?, h.idxHeader?_eq, Option.bind_eq_bind]
  refine guarded_wrote (fun hlen => ?_) rfl
  rw [Layout.wordBytes_length, hlen, ← block.entries_region]
  cases block <;> rfl

/-- Index arrays can be set, and no other index array sees it. -/
theorem exists_indices (block : IdxBlock) {i : Nat} (hi : i < block.region.count q.dims.N) (ns : List Nat)
    (hlen : ns.length = block.len q.dims i) (hlt : ∀ n ∈ ns, n < Word.limit) :
    ∃ q', q.writeIndices? block i ns = some q' ∧ q'.dims = q.dims ∧ q'.indices? block i = some ns ∧
      ∀ block' j, (block', j) ≠ (block, i) → q'.indices? block' j = q.indices? block' j := by
  have hbytes : (ns.flatMap Word.encode).length = q.bytesOf block.region i := by
    rw [Layout.wordBytes_length, hlen, ← block.entries_region]
    cases block <;> rfl
  obtain ⟨q', w⟩ := h.exists_wrote hi hbytes
  have h' := w.laid h
  refine ⟨q', h.writeIndices?_eq_some.mpr ⟨hlen, w⟩, w.dims, ?_, fun block' j hne => ?_⟩
  · rw [h'.indices?_eq, w.dims, if_pos hi, w.words_self rfl (hlen.trans (block.entries_region _ _).symm),
      Layout.map_decode_encode hlt]
  · have hne' : (block'.region, j) ≠ (block.region, i) := by
      intro he
      rw [Prod.mk.injEq] at he
      refine hne (Prod.ext ?_ he.2)
      have hregion := he.1
      revert hregion
      cases block' <;> cases block <;> first | exact fun _ => rfl | exact fun h => RegionKind.noConfusion h
    rw [h'.indices?_eq, h.indices?_eq, w.dims]
    split
    · rename_i hj
      rw [w.words_apart h block'.isFloat_region hj hne']
    · rfl

end Laid

end Qp

end HorizonQp
