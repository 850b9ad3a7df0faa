/-
  HorizonQp.Proofs.Qp.Headers — the tables of headers in the block.

  A sound layout writes its three tables into their regions exactly (`writeHeaders?_held`);
  every word of them fits a word, so what is read back is what was written. Writes apart
  from the three regions keep the tables (`HeldBy.write`), and while they are kept a header
  looked up in the block is the header of the layout (`header?_of_table`).
-/

import HorizonQp.Proofs.Layout.Sound
import HorizonQp.Proofs.Memory.Bytes
import HorizonQp.Qp.Basic

namespace HorizonQp

open Word (limit)

namespace Layout

/-- The block has room for the layout and holds its three tables of headers. -/
structure HeldBy (l : Layout) (b : Block) : Prop where
  room : b.base + l.used ≤ b.size
  idx : b.readWords? (l.region .idxHeaders).offset (l.idxHeaders.flatMap IdxHeader.words).length =
    some (l.idxHeaders.flatMap IdxHeader.words)
  mat : b.readWords? (l.region .matHeaders).offset (l.matHeaders.flatMap MatHeader.words).length =
    some (l.matHeaders.flatMap MatHeader.words)
  vec : b.readWords? (l.region .vecHeaders).offset (l.vecHeaders.flatMap VecHeader.words).length =
    some (l.vecHeaders.flatMap VecHeader.words)

/-- The regions of the tables. -/
def isTable (kind : RegionKind) : Prop := kind = .idxHeaders ∨ kind = .matHeaders ∨ kind = .vecHeaders

/-! ## Every word of a header fits a word -/

namespace Sound

variable {l : Layout} {size : Nat} {d : Dims} (h : l.Sound size d)
include h

theorem place_lt {kind : RegionKind} {i : Nat} (hi : i < kind.count d.N) :
    l.offsetOf size d kind i < limit ∧ kind.stride size d i < limit := by
  have h1 := h.array_inside hi
  have h2 := h.region_lt kind
  omega

theorem nuxAt_lt {i : Nat} (hi : i ≤ d.N) : d.nuxAt i + 1 < limit := (h.words i hi).1

theorem ncAt_lt {i : Nat} (hi : i ≤ d.N) : d.ncAt i < limit := (h.words i hi).2.2

theorem idxHeader_lt (block : IdxBlock) {i : Nat} (hi : i < block.region.count d.N) :
    ∀ w ∈ (l.idxHeader size d block i).words, w < limit := by
  obtain ⟨ho, -⟩ := h.place_lt hi
  have hi' : i ≤ d.N := by cases block <;> exact Nat.le_of_lt_succ hi
  have hc := h.ncAt_lt hi'
  have hlen : block.len d i < limit := by
    unfold Dims.ncAt at hc
    cases block <;> simp only [IdxBlock.len] <;> omega
  simpa [idxHeader, IdxHeader.words] using ⟨ho, hlen⟩

theorem matHeader_lt (block : MatBlock) {i : Nat} (hi : i < block.region.count d.N) :
    ∀ w ∈ (l.matHeader size d block i).words, w < limit := by
  obtain ⟨ho, hs⟩ := h.place_lt hi
  have hshape : (block.shape d i).1 < limit ∧ (block.shape d i).2 < limit := by
    cases block with
    | BAbt =>
      have hi : i < d.N := hi
      have h1 := h.nuxAt_lt (show i ≤ d.N by omega)
      have h2 := h.nuxAt_lt (show i + 1 ≤ d.N by omega)
      simp only [MatBlock.shape, Dims.nuxAt] at h1 h2 ⊢
      omega
    | RSQrq =>
      have h1 := h.nuxAt_lt (show i ≤ d.N from Nat.le_of_lt_succ hi)
      simp only [MatBlock.shape]
      omega
    | DCt =>
      have hi : i ≤ d.N := Nat.le_of_lt_succ hi
      have h1 := h.nuxAt_lt hi
      have h2 := h.ncAt_lt hi
      simp only [MatBlock.shape, Dims.ncAt] at h1 h2 ⊢
      omega
  simpa [matHeader, MatHeader.words] using ⟨hshape.1, hshape.2, ho, hs⟩

theorem vecHeader_lt (block : VecBlock) {i : Nat} (hi : i < block.region.count d.N) :
    ∀ w ∈ (l.vecHeader size d block i).words, w < limit := by
  obtain ⟨ho, hs⟩ := h.place_lt hi
  have hlen : block.len d i < limit := by
    cases block with
    | b =>
      have hi : i < d.N := hi
      have := h.nuxAt_lt (show i + 1 ≤ d.N by omega)
      simp only [VecBlock.len, Dims.nuxAt] at this ⊢
      omega
    | rqz => exact (h.words i (Nat.le_of_lt_succ hi)).2.1
    | d => exact h.ncAt_lt (Nat.le_of_lt_succ hi)
    | m => exact h.ncAt_lt (Nat.le_of_lt_succ hi)
    | Z =>
      have := h.ncAt_lt (show i ≤ d.N from Nat.le_of_lt_succ hi)
      simp only [VecBlock.len, Dims.ncAt] at this ⊢
      omega
  simpa [vecHeader, VecHeader.words] using ⟨hlen, ho, hs⟩

end Sound

theorem words_lt_of_row {H : Type} {words : H → List Nat} {header : Nat → H} {n : Nat}
    (h : ∀ i < n, ∀ w ∈ words (header i), w < limit) : ∀ w ∈ (rowOf header n).flatMap words, w < limit := by
  intro w hw
  obtain ⟨x, hx, hw⟩ := List.mem_flatMap.mp hw
  obtain ⟨i, hi, rfl⟩ := List.mem_map.mp hx
  exact h i (List.mem_range.mp hi) w hw

namespace Sound

variable {l : Layout} {size : Nat} {d : Dims} (h : l.Sound size d)
include h

theorem idxWords_lt : ∀ w ∈ l.idxHeaders.flatMap IdxHeader.words, w < limit := by
  have row (block : IdxBlock) := words_lt_of_row fun _ hi => h.idxHeader_lt block hi
  intro w hw
  rw [h.idxHeaders, idxTable, List.flatMap_append, List.mem_append] at hw
  rcases hw with hw | hw
  · exact row .idxb w hw
  · exact row .idxs w hw

theorem matWords_lt : ∀ w ∈ l.matHeaders.flatMap MatHeader.words, w < limit := by
  have row (block : MatBlock) := words_lt_of_row fun _ hi => h.matHeader_lt block hi
  intro w hw
  rw [h.matHeaders, matTable, List.flatMap_append, List.flatMap_append, List.mem_append, List.mem_append] at hw
  rcases hw with (hw | hw) | hw
  · exact row .BAbt w hw
  · exact row .RSQrq w hw
  · exact row .DCt w hw

theorem vecWords_lt : ∀ w ∈ l.vecHeaders.flatMap VecHeader.words, w < limit := by
  have row (block : VecBlock) := words_lt_of_row fun _ hi => h.vecHeader_lt block hi
  intro w hw
  rw [h.vecHeaders, vecTable, List.flatMap_append, List.flatMap_append, List.flatMap_append, List.flatMap_append,
    List.mem_append, List.mem_append, List.mem_append, List.mem_append] at hw
  rcases hw with (((hw | hw) | hw) | hw) | hw
  · exact row .b w hw
  · exact row .rqz w hw
  · exact row .d w hw
  · exact row .m w hw
  · exact row .Z w hw

end Sound

/-! ## Writing the tables -/

theorem words_length {H : Type} {words : H → List Nat} {w : Nat} (hw : ∀ x, (words x).length = w) (hs : List H) :
    (hs.flatMap words).length = hs.length * w := by
  induction hs with
  | nil => simp
  | cons x hs ih => rw [List.flatMap_cons, List.length_append, ih, hw, List.length_cons, Nat.succ_mul, Nat.add_comm]

namespace Sound

variable {l : Layout} {size : Nat} {d : Dims} (h : l.Sound size d)
include h

/-- A table fills its region. -/
theorem idx_fill : (l.idxHeaders.flatMap IdxHeader.words).length * Word.width = (l.region .idxHeaders).len := by
  rw [@words_length _ IdxHeader.words 2 (fun _ => rfl), h.idxHeaders, length_idxTable, h.idxRoom, Nat.mul_assoc]
  rfl

theorem mat_fill : (l.matHeaders.flatMap MatHeader.words).length * Word.width = (l.region .matHeaders).len := by
  rw [@words_length _ MatHeader.words 4 (fun _ => rfl), h.matHeaders, length_matTable, h.matRoom, Nat.mul_assoc]
  rfl

theorem vec_fill : (l.vecHeaders.flatMap VecHeader.words).length * Word.width = (l.region .vecHeaders).len := by
  rw [@words_length _ VecHeader.words 3 (fun _ => rfl), h.vecHeaders, length_vecTable, h.vecRoom, Nat.mul_assoc]
  rfl

end Sound

theorem map_decode_encode {ns : List Nat} (h : ∀ n ∈ ns, n < limit) :
    (ns.map fun n => Word.decode (Word.encode n)) = ns := by
  rw [List.map_congr_left fun n hn => Word.decode_encode (h n hn), List.map_id']

theorem encode_length (n : Nat) : (Word.encode n).length = Word.width := Word.length_lowBytes _ n

/-- Words that fit a word are read as they were written. -/
theorem readWords?_write {b b' : Block} {o : Nat} {ns : List Nat} (h : b.writeWords? o ns = some b')
    (hlt : ∀ n ∈ ns, n < limit) : b'.readWords? o ns.length = some ns := by
  rw [Block.readWords?_eq, Block.items_write?_self Word.decode encode_length h, map_decode_encode hlt]

/-- What writing one table does. -/
theorem writeTable?_eq_some {l : Layout} {kind : RegionKind} {ns : List Nat} {b b' : Block} :
    l.writeTable? kind ns b = some b' ↔
      ns.length * Word.width = (l.region kind).len ∧ b.writeWords? (l.region kind).offset ns = some b' := by
  unfold writeTable?
  simp only
  split <;> simp [*]

theorem wordBytes_length (ns : List Nat) : (ns.flatMap Word.encode).length = ns.length * Word.width :=
  Block.length_flatMap_of_width encode_length

variable {l : Layout} {size : Nat} {d : Dims} {b b' : Block}

/-- A write apart from the tables keeps them. -/
theorem HeldBy.write (h : l.HeldBy b) (hs : l.Sound size d) {o : Nat} {bs : List UInt8} (hw : b.write? o bs = some b')
    (hd : ∀ kind, isTable kind → (l.region kind).finish ≤ o ∨ o + bs.length ≤ (l.region kind).offset) : l.HeldBy b' := by
  have keep : ∀ {kind} {ns : List Nat}, isTable kind → ns.length * Word.width = (l.region kind).len →
      b.readWords? (l.region kind).offset ns.length = some ns →
      b'.readWords? (l.region kind).offset ns.length = some ns := by
    intro kind ns hk hlen hr
    rw [← hr]
    refine Block.items_write?_apart _ hw ?_
    have := hd kind hk
    unfold Region.finish at this
    omega
  refine ⟨?_, keep (Or.inl rfl) hs.idx_fill h.idx, keep (Or.inr (Or.inl rfl)) hs.mat_fill h.mat,
    keep (Or.inr (Or.inr rfl)) hs.vec_fill h.vec⟩
  rw [Block.base_write? hw, Block.size_write? hw]
  exact h.room

/-- The index headers that are written fill their region. -/
theorem idx_fill_of_writeHeaders? (hw : l.writeHeaders? b = some b') :
    l.idxHeaders.length * IdxHeader.width = (l.region .idxHeaders).len := by
  rcases Option.bind_eq_some_iff.mp hw with ⟨_, h, -⟩
  have hlen := (writeTable?_eq_some.mp h).1
  rw [@words_length _ IdxHeader.words 2 (fun _ => rfl), Nat.mul_assoc] at hlen
  exact hlen

/-- The tables are written into their regions, and nothing else changes. -/
theorem writeHeaders?_held (hs : l.Sound size d) (hroom : b.base + l.used ≤ b.size) (hw : l.writeHeaders? b = some b') :
    l.HeldBy b' ∧ b'.base = b.base ∧ b'.size = b.size := by
  simp only [writeHeaders?, Option.bind_eq_bind, Option.bind_eq_some_iff, writeTable?_eq_some] at hw
  obtain ⟨b1, ⟨hl1, hw1⟩, b2, ⟨hl2, hw2⟩, hl3, hw3⟩ := hw
  have hb1 := Block.base_write? hw1
  have hb2 := Block.base_write? hw2
  have hb3 := Block.base_write? hw3
  have hz1 := Block.size_write? hw1
  have hz2 := Block.size_write? hw2
  have hz3 := Block.size_write? hw3
  have apart : ∀ {kind kind' : RegionKind} {ns ns' : List Nat} {c c' : Block}, kind ≠ kind' →
      ns.length * Word.width = (l.region kind).len → ns'.length * Word.width = (l.region kind').len →
      c.writeWords? (l.region kind').offset ns' = some c' →
      c'.readWords? (l.region kind).offset ns.length = c.readWords? (l.region kind).offset ns.length := by
    intro kind kind' ns ns' c c' hne hn hn' hc
    refine Block.items_write?_apart _ hc ?_
    have := hs.region_apart hne
    unfold Region.finish at this
    rw [wordBytes_length]
    omega
  refine ⟨⟨by omega, ?_, ?_, readWords?_write hw3 hs.vecWords_lt⟩, by omega, by omega⟩
  · rw [apart (by decide) hl1 hl3 hw3, apart (by decide) hl1 hl2 hw2]
    exact readWords?_write hw1 hs.idxWords_lt
  · rw [apart (by decide) hl2 hl3 hw3]
    exact readWords?_write hw2 hs.matWords_lt

/-- A sound layout's tables can be written into a block with room for them. -/
theorem writeHeaders?_isSome (hs : l.Sound size d) (hroom : b.base + l.used ≤ b.size) :
    ∃ b', l.writeHeaders? b = some b' := by
  have table : ∀ {kind} {ns : List Nat} {c : Block}, c.base + l.used ≤ c.size →
      ns.length * Word.width = (l.region kind).len →
      ∃ c', l.writeTable? kind ns c = some c' ∧ c'.base + l.used ≤ c'.size := by
    intro kind ns c hc hn
    have hin := hs.region_inside kind
    unfold Region.finish at hin
    obtain ⟨c', hc'⟩ : ∃ c', c.write? (l.region kind).offset (ns.flatMap Word.encode) = some c' :=
      Block.write?_isSome (by rw [wordBytes_length]; omega)
    refine ⟨c', writeTable?_eq_some.mpr ⟨hn, hc'⟩, ?_⟩
    rw [Block.base_write? hc', Block.size_write? hc']
    exact hc
  obtain ⟨b1, h1, hr1⟩ := table hroom hs.idx_fill
  obtain ⟨b2, h2, hr2⟩ := table hr1 hs.mat_fill
  obtain ⟨b3, h3, -⟩ := table hr2 hs.vec_fill
  exact ⟨b3, by rw [writeHeaders?, h1, Option.bind_eq_bind, Option.bind_some, h2, Option.bind_some]; exact h3⟩

end Layout

end HorizonQp
