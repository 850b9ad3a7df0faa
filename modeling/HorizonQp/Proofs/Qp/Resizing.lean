/-
  HorizonQp.Proofs.Qp.Resizing — what a change of bounds asks for, and what it leaves.

  A split of the bounds is accepted exactly when it suits the stages, keeps every row that a
  slack softens, and has no more bounds over all stages than the block was laid out for
  (`resize_isOk_iff`). None of the sums that the checks form wraps, and the rows of `d` have
  room whenever the index arrays do (`sums`). What is refused is reported and changes nothing
  (`resize_fails`). What is accepted changes bytes of the header tables and no other, so every
  array that does not depend on the bounds keeps its place and its contents (`resize_resized`).
-/

import HorizonQp.Proofs.Qp.Reachable
import HorizonQp.Proofs.Qp.Rewriting

namespace HorizonQp

open Word (limit wrap wrap_of_lt)
open Block (AgreeBut)

namespace Layout

theorem region_congr {l l' : Layout} (h : l'.regions = l.regions) (kind : RegionKind) : l'.region kind = l.region kind := by
  unfold region
  rw [h]

theorem boundCapacity_congr {l l' : Layout} (h : l'.regions = l.regions) : l'.boundCapacity = l.boundCapacity := by
  unfold boundCapacity
  rw [region_congr h]

/-- A block has room for as many bounds as the dimensions have that it was laid out for. -/
theorem boundCapacity_plan {size : Nat} {d : Dims} (s : d.Spanned) {l : Layout} (h : plan size d = .ok l) :
    l.boundCapacity = total d.nb := by
  obtain ⟨rfl, -, -⟩ := plan_eq_ok s h
  show total ((List.range (d.N + 1)).map fun i => d.nbAt i * 8) / 8 = _
  rw [total_range_mul, ← s.nb_eq]
  omega

end Layout

namespace Qp

variable {α : Type} [Stored α]

/-! ## The regions stay -/

section Regions

variable [FixedWidth α] [Neg α]

/-- No call moves a region. -/
theorem after_regions {q : Qp α} (h : q.Bound) (c : Call α) : (c.after q).layout.regions = q.layout.regions := by
  rcases after_cases h.toLaid c with k | ⟨nbu, nbx, hr⟩
  · rw [k.layout]
  · rcases h.toLaid.resize_eq_ok.mp hr with ⟨-, -, -, -, -, nc, -, -, -, -, hl, -⟩
    rw [hl]
    rfl

theorem calls_regions {q : Qp α} (h : q.Bound) (calls : List (Call α)) :
    (calls.foldl Call.after q).Bound ∧ (calls.foldl Call.after q).layout.regions = q.layout.regions := by
  induction calls generalizing q with
  | nil => exact ⟨h, rfl⟩
  | cons c calls ih =>
    obtain ⟨hb, hr⟩ := ih (call_bound h c)
    exact ⟨hb, hr.trans (after_regions h c)⟩

end Regions

/-! ## What is accepted -/

/-- The split `nbu`, `nbx` of bounds suits the stages, keeps every softened row, and has at
    most `capacity` bounds. -/
structure Accepts (q : Qp α) (capacity : Nat) (nbu nbx : List Nat) : Prop where
  inputs : nbu.length = q.dims.N + 1
  states : nbx.length = q.dims.N + 1
  split : ∀ i ≤ q.dims.N, nbu.getD i 0 ≤ q.dims.nuAt i ∧ nbx.getD i 0 ≤ q.dims.nxAt i
  softened : ∀ i ≤ q.dims.N, ∃ idxs, q.indices? .idxs i = some idxs ∧
    ∀ k ∈ idxs, k < nbu.getD i 0 + nbx.getD i 0 + q.dims.ngAt i
  capacity : total (List.zipWith (· + ·) nbu nbx) ≤ capacity

/-- The rows of `d` and `m` over all stages, with other bounds. -/
def rowsOf (d : Dims) (nbu nbx : List Nat) : List Nat := (List.range (d.N + 1)).map (d.withBounds nbu nbx).ncAt

/-- No sum that the checks of a split form wraps, and the rows of `d` fit when the index arrays do. -/
structure Sums (q : Qp α) (nbu nbx : List Nat) : Prop where
  bounds : ∀ i ≤ q.dims.N, nbu.getD i 0 + nbx.getD i 0 < limit
  rows : ∀ i ≤ q.dims.N, 2 * (nbu.getD i 0 + nbx.getD i 0 + q.dims.ngAt i + q.dims.nsAt i) < limit
  allBounds : total (List.zipWith (· + ·) nbu nbx) * Word.width < limit
  allRows : total (rowsOf q.dims nbu nbx) < limit
  capacity : q.layout.checkCapacity .idxb Word.width (List.zipWith (· + ·) nbu nbx) = .ok () →
    total (rowsOf q.dims nbu nbx) * Stored.width α < limit ∧
      q.layout.checkCapacity .d (Stored.width α) (rowsOf q.dims nbu nbx) = .ok ()

section Splits

variable {q : Qp α} {nbu nbx : List Nat}

/-- Lengths and split make the dimensions with the new bounds consistent, and conversely. -/
theorem withBounds_consistent_iff (h : q.Bound) :
    (q.dims.withBounds nbu nbx).Consistent ↔ nbu.length = q.dims.N + 1 ∧ nbx.length = q.dims.N + 1 ∧
      ∀ i ≤ q.dims.N, nbu.getD i 0 ≤ q.dims.nuAt i ∧ nbx.getD i 0 ≤ q.dims.nxAt i := by
  have s := h.dims.shaped
  constructor
  · intro hc
    have hs := hc.shaped
    exact ⟨hs.nbu, hs.nbx, fun i hi => ((Dims.consistent_iff.mp hc).2 i hi).2⟩
  · rintro ⟨hu, hx, hsplit⟩
    exact Dims.withBounds_consistent h.dims hu.symm hx.symm
      ((Dims.splitFault?_eq_none h.spans.nx h.spans.nu hu hx).mpr fun i hi => hsplit i (Nat.le_of_lt_succ hi))

theorem nbAt_withBounds {d : Dims} (hd' : (d.withBounds nbu nbx).Consistent) {i : Nat} (hi : i ≤ d.N) :
    (d.withBounds nbu nbx).nbAt i = nbu.getD i 0 + nbx.getD i 0 := ((Dims.consistent_iff.mp hd').2 i hi).1

/-- The rows over all stages, in terms of the bounds. -/
theorem total_rowsOf (d : Dims) (nbu nbx : List Nat) : total (rowsOf d nbu nbx) =
    2 * (total ((List.range (d.N + 1)).map (d.withBounds nbu nbx).nbAt) +
      total ((List.range (d.N + 1)).map d.ngAt) + total ((List.range (d.N + 1)).map d.nsAt)) :=
  Layout.total_rows (d.withBounds nbu nbx).nbAt d.ngAt d.nsAt (d.N + 1)

theorem total_withBounds {d : Dims} (hd' : (d.withBounds nbu nbx).Consistent) :
    total (List.zipWith (· + ·) nbu nbx) = total ((List.range (d.N + 1)).map (d.withBounds nbu nbx).nbAt) :=
  congrArg total (hd'.shaped.spanned.nb_eq : (d.withBounds nbu nbx).nb = _)

/-- The index arrays fit exactly when there are no more bounds than the block has room for. -/
theorem checkCapacity_idxb_iff {l : Layout} (hlt : total (List.zipWith (· + ·) nbu nbx) * Word.width < limit) :
    l.checkCapacity .idxb Word.width (List.zipWith (· + ·) nbu nbx) = .ok () ↔
      total (List.zipWith (· + ·) nbu nbx) ≤ l.boundCapacity := by
  have hlt' : total (List.zipWith (· + ·) nbu nbx) < limit :=
    Nat.lt_of_le_of_lt (Nat.le_mul_of_pos_right _ (by decide)) hlt
  unfold Layout.checkCapacity Layout.boundCapacity
  simp only [wrap_of_lt hlt', wrap_of_lt hlt]
  rw [Nat.le_div_iff_mul_le (by decide)]
  split
  · rename_i hgt
    simp only [reduceCtorEq, false_iff]
    omega
  · rename_i hle
    simp only [true_iff]
    omega

/-- For a split that suits the stages, nothing that is computed wraps. -/
theorem Bound.sums [FixedWidth α] (h : q.Bound) (hd' : (q.dims.withBounds nbu nbx).Consistent) : q.Sums nbu nbx := by
  have hs := FixedWidth.width_pos α
  have hb := total_bounds_lt h.layout hs hd'.bounded
  have hn := h.layout.total_rows_lt hs
  have hl : limit = 2 * (limit / 2) := by decide
  have hall : total (List.zipWith (· + ·) nbu nbx) * Word.width < limit := by
    rw [total_withBounds hd']
    exact hb
  refine ⟨fun i hi => ?_, fun i hi => ?_, hall, ?_, fun hc => ?_⟩
  · rw [← nbAt_withBounds hd' hi]
    have hr := rows_lt h.layout hs hd'.bounded hi
    change 2 * ((q.dims.withBounds nbu nbx).nbAt i + q.dims.ngAt i + q.dims.nsAt i) < limit at hr
    omega
  · rw [← nbAt_withBounds hd' hi]
    exact rows_lt h.layout hs hd'.bounded hi
  · rw [total_rowsOf]
    omega
  · -- the rows of `d` have room for as many bounds as the index arrays
    have hcap := (checkCapacity_idxb_iff hall).mp hc
    rw [total_withBounds hd'] at hcap
    have hrows := h.layout.rows .d (Or.inl rfl)
    have hle : total (rowsOf q.dims nbu nbx) * Stored.width α ≤ (q.layout.region .d).len := by
      rw [total_rowsOf]
      refine Nat.le_trans (Nat.mul_le_mul_right _ (Nat.mul_le_mul_left 2 ?_)) hrows
      omega
    have hfin := h.layout.region_lt .d
    unfold Region.finish at hfin
    have hlt : total (rowsOf q.dims nbu nbx) * Stored.width α < limit := by omega
    have hlt' : total (rowsOf q.dims nbu nbx) < limit :=
      Nat.lt_of_le_of_lt (Nat.le_mul_of_pos_right _ hs) hlt
    refine ⟨hlt, ?_⟩
    unfold Layout.checkCapacity
    simp only [wrap_of_lt hlt', wrap_of_lt hlt]
    rw [if_neg (by omega)]

omit [Stored α] in
/-- The checks of the softened rows pass when every slack softens a row that there is. -/
theorem checkSoftRows_eq_ok {nb : List Nat} {i : Nat} :
    q.checkSoftRows nb i = .ok () ↔ ∃ idxs, q.indices? .idxs i = some idxs ∧ ∃ b, nb[i]? = some b ∧
      ∃ g, q.dims.ng[i]? = some g ∧ ∀ k ∈ idxs, k < wrap (b + g) := by
  simp only [checkSoftRows, Attempt.bind_eq_ok, Attempt.require_eq_ok, Attempt.ofExcept_eq_ok, checkIndices_eq_ok]

theorem Bound.softened_iff [FixedWidth α] (h : q.Bound) (hd' : (q.dims.withBounds nbu nbx).Consistent) :
    (∃ us, overStages (q.checkSoftRows (q.dims.withBounds nbu nbx).nb) 0 q.dims.stages = .ok us) ↔
      ∀ i ≤ q.dims.N, ∃ idxs, q.indices? .idxs i = some idxs ∧
        ∀ k ∈ idxs, k < nbu.getD i 0 + nbx.getD i 0 + q.dims.ngAt i := by
  have s := hd'.shaped
  have stage : ∀ i ≤ q.dims.N, q.checkSoftRows (q.dims.withBounds nbu nbx).nb i = .ok () ↔
      ∃ idxs, q.indices? .idxs i = some idxs ∧ ∀ k ∈ idxs, k < nbu.getD i 0 + nbx.getD i 0 + q.dims.ngAt i := by
    intro i hi
    have hg : q.dims.ng[i]? = some (q.dims.ngAt i) := h.spans.ng_get hi
    have hrows := (h.sums hd').rows i hi
    rw [checkSoftRows_eq_ok, s.spanned.nb_get hi, hg, nbAt_withBounds hd' hi]
    simp only [Option.some.injEq, exists_eq_left']
    rw [wrap_of_lt (by omega)]
  constructor
  · rintro ⟨us, hus⟩ i hi
    obtain ⟨u, -, hu⟩ := (overStages_eq_ok.mp hus).2 i (Nat.lt_succ_of_le hi)
    rw [Nat.zero_add] at hu
    exact (stage i hi).mp hu
  · intro hall
    refine ⟨List.replicate q.dims.stages (), overStages_eq_ok.mpr ⟨List.length_replicate, fun i hi => ⟨(), ?_, ?_⟩⟩⟩
    · rw [List.getElem?_replicate, if_pos hi]
    · rw [Nat.zero_add]
      exact (stage i (Nat.le_of_lt_succ hi)).mpr (hall i (Nat.le_of_lt_succ hi))

/-- A split is accepted exactly when it suits the stages, keeps every softened row and has no
    more bounds than the block has room for. -/
theorem Bound.resize_isOk_iff [FixedWidth α] (h : q.Bound) :
    (∃ q', q.resize nbu nbx = .ok q') ↔ q.Accepts q.layout.boundCapacity nbu nbx := by
  have hpos := FixedWidth.width_pos α
  constructor
  · rintro ⟨q', hr⟩
    obtain ⟨hu, hx, hs, -, hd, nc, -, hsoft, hcap, -, -, -⟩ := h.toLaid.resize_eq_ok.mp hr
    have hd' := Dims.withBounds_consistent h.dims hu hx hs
    obtain ⟨hul, hxl, hsplit⟩ := (withBounds_consistent_iff h).mp hd'
    rw [hd] at hsoft hcap
    exact ⟨hul, hxl, hsplit, (h.softened_iff hd').mp hsoft, (checkCapacity_idxb_iff (h.sums hd').allBounds).mp hcap⟩
  · intro ha
    have hd' := (withBounds_consistent_iff h).mpr ⟨ha.inputs, ha.states, ha.split⟩
    have hsums := h.sums hd'
    have hidxb := (checkCapacity_idxb_iff hsums.allBounds).mpr ha.capacity
    have hcap := ha.capacity
    rw [total_withBounds hd'] at hcap
    obtain ⟨b, hb⟩ := Layout.writeHeaders?_isSome (Layout.repack_sound h.layout hpos hd'.bounded hcap) h.held.room
    exact ⟨⟨q.dims.withBounds nbu nbx, q.layout.rebound (Stored.width α) q.dims nbu nbx, b⟩, h.toLaid.resize_eq_ok.mpr
      ⟨ha.inputs.symm, ha.states.symm, hd'.2.2, Nat.le_of_eq (h.dims.shaped.nx.trans ha.inputs.symm), rfl,
        rowsOf q.dims nbu nbx, overStages_some_map fun i hi => rowsWith?_eq h.layout hpos hd'.bounded (Nat.le_of_lt_succ hi),
        (h.softened_iff hd').mpr ha.softened, hidxb, (hsums.capacity hidxb).2, rfl, hb⟩⟩

/-- What is refused is reported. -/
theorem Bound.resize_fails [FixedWidth α] (h : q.Bound) : Attempt.FailsWith (· ≠ .breach) (q.resize nbu nbx) := by
  have s := h.dims.shaped
  have check : ∀ x : Except QpError Unit, Attempt.FailsWith (· ≠ .breach) (Attempt.ofExcept x : Attempt QpError Unit) :=
    Attempt.FailsWith.ofExcept fun e => by simp
  unfold Qp.resize
  refine (check _).bind fun _ hu => (check _).bind fun _ hx => ?_
  have hu := checkLength_eq_ok.mp (Attempt.ofExcept_eq_ok.mp hu)
  have hx := checkLength_eq_ok.mp (Attempt.ofExcept_eq_ok.mp hx)
  cases hs : splitFault? q.dims.nx q.dims.nu nbu nbx with
  | some stage => exact Attempt.FailsWith.error (by simp)
  | none =>
    have hd' := Dims.withBounds_consistent h.dims hu hx hs
    have hnb : Dims.joinBounds nbu nbx = List.zipWith (· + ·) nbu nbx :=
      Dims.joinBounds_of_split h.spans h.layout.words hu hx hs
    have hrows : overStages (rowsWith? q.dims (List.zipWith (· + ·) nbu nbx)) 0 q.dims.stages = some (rowsOf q.dims nbu nbx) :=
      overStages_some_map fun i hi => rowsWith?_eq h.layout (FixedWidth.width_pos α) hd'.bounded (Nat.le_of_lt_succ hi)
    have hlen : ¬ nbu.length < q.dims.nx.length := by
      rw [s.nx, ← hu]
      exact Nat.lt_irrefl _
    simp only [if_neg hlen, hnb, hrows, Attempt.require_some, Attempt.ok_bind]
    refine (Attempt.FailsWith.overStages fun i hi => ?_).bind fun _ _ => (check _).bind fun _ hc => (check _).bind fun _ _ => ?_
    · have hi : 0 + i ≤ q.dims.N := by rw [Nat.zero_add]; exact Nat.le_of_lt_succ hi
      have hnb : (List.zipWith (· + ·) nbu nbx)[0 + i]? = some _ := hd'.shaped.spanned.nb_get hi
      have hidxs : q.indices? .idxs (0 + i) = some _ := (h.indices?_eq .idxs (0 + i)).trans (if_pos (Nat.lt_succ_of_le hi))
      rw [checkSoftRows, hidxs, hnb, s.spanned.ng_get hi]
      exact check _
    · have hidxb := Attempt.ofExcept_eq_ok.mp hc
      have hcap := (checkCapacity_idxb_iff (h.sums hd').allBounds).mp hidxb
      rw [total_withBounds hd'] at hcap
      have hsound := Layout.repack_sound h.layout (FixedWidth.width_pos α) hd'.bounded hcap
      obtain ⟨b, hb⟩ := Layout.writeHeaders?_isSome hsound h.held.room
      have hb : (q.layout.repack (Stored.width α) q.dims.N (List.zipWith (· + ·) nbu nbx)
        (rowsOf q.dims nbu nbx)).writeHeaders? q.block = some b := hb
      rw [hb]
      exact Attempt.FailsWith.ok _

/-! ## What is left -/

/-- `q'` is `q` with the bounds `nbu`, `nbx`: the arrays that depend on them are packed back to
    back from the start of their regions, and everything else is where and what it was. -/
structure Resized (q q' : Qp α) (nbu nbx : List Nat) : Prop where
  dims : q'.dims = { q.dims with nb := List.zipWith (· + ·) nbu nbx, nbu, nbx }
  regions : q'.layout.regions = q.layout.regions
  used : q'.layout.used = q.layout.used
  memsize : q'.layout.memsize = q.layout.memsize
  matHeaders : q'.layout.matHeaders = q.layout.matHeaders
  /-- Only bytes of the header tables change. -/
  bytes : AgreeBut (q.layout.IsHeader q.block) q.block q'.block
  packed : ∀ kind, kind.isBounds = true → ∀ i ≤ q.dims.N, q'.extent? kind i = some
    ((q.layout.region kind).offset + total ((List.range i).map (kind.bytes (Stored.width α) q'.dims)),
      kind.bytes (Stored.width α) q'.dims i)
  kept : ∀ kind, kind.isBounds = false → ∀ i, q'.extent? kind i = q.extent? kind i
  matrix : ∀ block i, q'.matrix? block i = q.matrix? block i
  vector : ∀ block, block.region.isBounds = false → ∀ i, q'.vector? block i = q.vector? block i
  idxs : ∀ i, q'.indices? .idxs i = q.indices? .idxs i

theorem entries_withBounds (d : Dims) (nbu nbx : List Nat) {kind : RegionKind} (hk : kind.isBounds = false) (i : Nat) :
    kind.entries (d.withBounds nbu nbx) i = kind.entries d i := by
  cases kind <;> first | rfl | cases hk

/-- The arrays that depend on the bounds are packed. -/
theorem stride_isBounds (size : Nat) (d : Dims) {kind : RegionKind} (hk : kind.isBounds = true) :
    kind.stride size d = kind.bytes size d := by
  funext i
  cases kind <;> first | rfl | cases hk

section Kept

variable [FixedWidth α] (h : q.Bound) {q' : Qp α} (hr : q.resize nbu nbx = .ok q')
include h hr

theorem resize_agree : AgreeBut (q.layout.IsHeader q.block) q.block q'.block := by
  obtain ⟨-, -, -, hl, hw⟩ := h.resize_parts hr
  have ha := Layout.writeHeaders?_agree hw
  rwa [hl] at ha

theorem resize_placeOf {kind : RegionKind} (hk : kind.isBounds = false) (i : Nat) : q'.placeOf kind i = q.placeOf kind i := by
  obtain ⟨-, -, hd, hl, -⟩ := h.resize_parts hr
  unfold placeOf
  rw [hd, hl, Layout.offsetOf_rebound _ _ _ _ hk]

/-- The bytes of an array are no header's, and stay. -/
theorem resize_read {kind : RegionKind} {i : Nat} (hi : i < kind.count q.dims.N) :
    q'.block.read? (q.placeOf kind i) (q.bytesOf kind i) = q.block.read? (q.placeOf kind i) (q.bytesOf kind i) := by
  have ha := resize_agree h hr
  have hin := h.layout.array_inside hi
  have hle := kind.bytes_le_stride (Stored.width α) q.dims i
  refine Block.read?_congr ha.base ha.size fun k hk => ha.bytes _ ?_
  rintro ⟨table, ht, hhead⟩
  -- the tables have no arrays
  have hne : table ≠ kind := by
    rintro rfl
    rcases ht with rfl | rfl | rfl <;> exact absurd hi (Nat.not_lt_zero _)
  have hapart := h.layout.region_apart hne
  unfold Block.within at hhead
  unfold Region.finish at *
  unfold placeOf bytesOf at *
  omega

theorem resize_numbers {kind : RegionKind} (hk : kind.isBounds = false) (hf : kind.isFloat = true) {i : Nat}
    (hi : i < kind.count q.dims.N) : q'.numbers kind i = q.numbers kind i := by
  have hread := resize_read h hr hi
  rw [bytesOf, RegionKind.bytes, RegionKind.entryWidth, if_pos hf] at hread
  have hd := (h.resize_parts hr).2.2.1
  rw [numbers, numbers, resize_placeOf h hr hk, hd, entries_withBounds _ _ _ hk, Block.readNumbers?_eq,
    Block.readNumbers?_eq, Block.items_congr hread]

theorem resize_words {kind : RegionKind} (hk : kind.isBounds = false) (hf : kind.isFloat = false) {i : Nat}
    (hi : i < kind.count q.dims.N) : q'.words kind i = q.words kind i := by
  have hread := resize_read h hr hi
  rw [bytesOf, RegionKind.bytes, RegionKind.entryWidth, if_neg (by simp [hf])] at hread
  have hd := (h.resize_parts hr).2.2.1
  rw [words, words, resize_placeOf h hr hk, hd, entries_withBounds _ _ _ hk, Block.readWords?_eq,
    Block.readWords?_eq, Block.items_congr hread]

theorem resize_idxs (i : Nat) : q'.indices? .idxs i = q.indices? .idxs i := by
  have hd := (h.resize_parts hr).2.2.1
  rw [(h.resize hr).indices?_eq, h.indices?_eq, hd]
  show (if i < q.dims.N + 1 then _ else _) = if i < q.dims.N + 1 then _ else _
  split
  · rename_i hi
    exact congrArg some (resize_words h hr rfl rfl hi)
  · rfl

theorem Bound.resize_resized : q.Resized q' nbu nbx := by
  obtain ⟨hd', hcap, hd, hl, hw⟩ := h.resize_parts hr
  have h' := h.resize hr
  refine ⟨hd, by rw [hl]; rfl, by rw [hl]; rfl, by rw [hl]; rfl, by rw [hl]; rfl, resize_agree h hr, ?_, ?_, ?_, ?_,
    resize_idxs h hr⟩
  · intro kind hk i hi
    have hcount : kind.count q'.dims.N = q.dims.N + 1 := by
      rw [hd]
      cases kind <;> first | rfl | cases hk
    rw [h'.extent?_eq, if_pos (by omega), placeOf, Layout.offsetOf, stride_isBounds _ _ hk, hl]
    rfl
  · intro kind hk i
    rw [h'.extent?_eq, h.extent?_eq, resize_placeOf h hr hk, bytesOf, bytesOf, RegionKind.bytes, RegionKind.bytes, hd,
      entries_withBounds _ _ _ hk]
    rfl
  · intro block i
    rw [h'.matrix?_eq, h.matrix?_eq, hd]
    show (if i < block.region.count q.dims.N then _ else _) = if i < block.region.count q.dims.N then _ else _
    split
    · rename_i hi
      have hn := resize_numbers h hr (show block.region.isBounds = false by cases block <;> rfl) block.isFloat_region hi
      rw [matrixAt, matrixAt, hn, hd]
      cases block <;> rfl
    · rfl
  · intro block hk i
    rw [h'.vector?_eq, h.vector?_eq, hd]
    show (if i < block.region.count q.dims.N then _ else _) = if i < block.region.count q.dims.N then _ else _
    split
    · rename_i hi
      exact congrArg some (resize_numbers h hr hk block.isFloat_region hi)
    · rfl

end Kept

end Splits

end Qp

end HorizonQp
