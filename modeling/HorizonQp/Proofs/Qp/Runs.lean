/-
  HorizonQp.Proofs.Qp.Runs — what a list of writes leaves behind.

  A write of numbers puts at every entry that it writes a number that does not depend on what
  was there (`Dims.given?`, `Write.setFloats_numbers`), and writes of different fields share no
  entry (`Write.Apart`). So after a run of writes that are apart every entry holds what its
  write gave, and every other byte is as before, in whichever order the writes came
  (`Carries`, `carries_of_runs`).

  `Leaves` says this of problems whose numbers were cleared first. It settles every byte of
  the span of the numbers (`Leaves.floatBytes_eq`).
-/

import HorizonQp.Proofs.Qp.Writes

namespace HorizonQp

open Linear (Matrix Order)

/-! ## What a write gives to an entry -/

namespace MatSlot

variable {α : Type} {s : MatSlot}

theorem exists_userEntry? {r c : Nat} (h : s.Covers r c) : ∃ i j, s.userEntry? r c = some (i, j) := by
  obtain ⟨⟨hr, hr'⟩, hc, hc'⟩ := h
  unfold height at hr'
  unfold width at hc'
  unfold userEntry?
  rw [if_pos ⟨hr, hc⟩]
  cases ht : s.transposed with
  | false =>
    simp only [ht, Bool.false_eq_true, if_false] at hr' hc' ⊢
    exact ⟨_, _, if_pos ⟨by omega, by omega⟩⟩
  | true =>
    simp only [ht, if_true] at hr' hc' ⊢
    exact ⟨_, _, if_pos ⟨by omega, by omega⟩⟩

/-- What storing the data puts at place `k` of an array of `rows` rows. -/
def given? (s : MatSlot) (order : Order) (data : List α) (rows k : Nat) : Option α :=
  (s.userEntry? (k % rows) (k / rows)).bind fun (i, j) => data[order.index s.rows s.cols i j]?

theorem getElem?_store_covered {order : Order} {data : List α} {M : Matrix α} (hM : M.WellShaped) (hf : s.Fits M.rows M.cols)
    (hlen : s.rows * s.cols = data.length) {k : Nat} (hc : s.Covers (k % M.rows) (k / M.rows)) :
    (s.store order data M)[k]? = s.given? order data M.rows k := by
  rcases exists_userEntry? hc with ⟨i, j, hu⟩
  obtain ⟨he, hi, hj⟩ := blockEntry_of_userEntry? hu
  have hstore := @getElem?_store _ _ order data M i j hM hf hlen hi hj
  rw [he, Matrix.index, Nat.mod_add_div] at hstore
  rw [hstore, given?, hu]
  rfl

end MatSlot

namespace Dims

variable {α : Type} [Neg α] (d : Dims) (i : Nat)

/-- The number that setting field `f` of stage `i` puts at entry `k` of the array of a kind: an
    entry of the field, or of the last row that repeats it. -/
def given? (f : Field) (order : Order) (data : List α) (kind : RegionKind) (k : Nat) : Option α :=
  match f.kind with
  | .matrix => (d.matSlotAt i f).given? order data ((d.matSlotAt i f).block.shape d i).1 k
  | _ =>
    if kind = (d.vecSlotAt i f).block.region then ((d.vecSlotAt i f).held data)[k - (d.vecSlotAt i f).offset]?
    else (d.vecSlotAt i f).augmented.bind fun (block, col0) => data[k / (block.shape d i).1 - col0]?

variable {d i} {f g : Field} {kind : RegionKind} {k : Nat}

/-- A last row repeats two fields side by side. -/
theorem mirrors_unique (hf : d.Mirrors i f kind k) (hg : d.Mirrors i g kind k) : f = g := by
  obtain ⟨block, col0, ha, rfl, -, hc, hc'⟩ := hf
  obtain ⟨block', col0', hb, hr, -, hd, hd'⟩ := hg
  cases MatBlock.region_inj hr
  cases f <;> cases ha
  all_goals
    cases g <;> first | rfl | (cases hb; done) | skip
  all_goals
    cases hb
    simp only [MatSlot.lastRow, MatSlot.width, vecSlotAt, Bool.false_eq_true, if_false] at hc hc' hd hd'
    omega

end Dims

namespace Qp

variable {d : Dims} {i : Nat} {f g : Field} {kind : RegionKind} {k : Nat}

/-- Setting two fields that do not overlap writes no entry twice. -/
theorem written_disjoint (hd : d.Consistent) (hi : i ≤ d.N) (hne : f ≠ g) (ho : f.overlaps g = false)
    (hf : Written d i f kind k) : ¬ Written d i g kind k := by
  rintro (hg | hg)
  · rcases hf with hf | hf
    · exact Dims.owns_apart hd hi hne ho hf hg
    · exact Dims.mirrors_apart hf hg
  · rcases hf with hf | hf
    · exact Dims.mirrors_apart hg hf
    · exact hne (Dims.mirrors_unique hf hg)

theorem written_isFloat (hk : f.kind ≠ .index) (h : Written d i f kind k) : kind.isFloat = true := by
  rcases h with h | ⟨block, _, -, rfl, -⟩
  · cases hf : f.kind with
    | matrix => exact ((Dims.owns_matrix hf).mp h).1 ▸ MatBlock.isFloat_region _
    | vector => exact ((Dims.owns_vector hf).mp h).1 ▸ VecBlock.isFloat_region _
    | index => exact absurd hf hk
  · exact block.isFloat_region

theorem written_index (hk : f.kind = .index) (h : Written d i f kind k) : kind = f.idxBlock.region := by
  rcases h with h | ⟨block, col0, ha, -⟩
  · exact (Dims.owns_index hk).mp h
  · cases f <;> first | (cases hk; done) | cases ha

theorem written_stage (hi : i < f.count d.N) (h : Written d i f kind k) : i < kind.count d.N := by
  rcases h with h | ⟨block, col0, ha, rfl, -⟩
  · cases hf : f.kind with
    | matrix => rwa [((Dims.owns_matrix hf).mp h).1, Dims.matSlotAt_count hf]
    | vector => rwa [((Dims.owns_vector hf).mp h).1, Dims.vecSlotAt_count hf]
    | index => exact ((Dims.owns_index hf).mp h) ▸ Field.idxBlock_stage hf hi
  · rwa [(Dims.vecSlotAt_augmented ha).2]

end Qp

/-! ## One write -/

namespace Write

variable {α : Type} [Stored α] [Zero α] [Neg α] [LawfulStored α] {q q' : Qp α} {order : Order} {w : Write α}

theorem run_changed (h : q.Bound) (hr : w.run order q = .ok q') :
    q.ChangedOnly q' w.stage (Qp.Written q.dims w.stage w.field) := by
  rcases w with ⟨i, f, xs | ns⟩
  · unfold run Qp.setFloats at hr
    simp only at hr
    split at hr
    · exact (h.setMatrix_changed hr).1
    · exact (h.setVector_changed hr).1
  · exact (h.setIndex_changed hr).1

section Numbers

variable (h : q.Bound) {i : Nat} {f : Field} {xs : List α} {kind : RegionKind} {k : Nat}
include h

theorem setMatrix_numbers (hr : q.setMatrix f i xs order = .ok q') (hw : Qp.Written q.dims i f kind k) :
    (q'.numbers kind i)[k]? = q.dims.given? i f order xs kind k := by
  obtain ⟨-, hk, hi, hlen, hA⟩ := h.setMatrix_changed hr
  rcases hw with hw | ⟨_, _, ha, -⟩
  · obtain ⟨rfl, hc⟩ := (Dims.owns_matrix hk).mp hw
    have hM := h.matrixAt_wellShaped (show i < (q.dims.matSlotAt i f).block.region.count q.dims.N by
      rwa [Dims.matSlotAt_count hk])
    have hstore := @MatSlot.getElem?_store_covered _ _ order _ _ hM (Dims.matSlotAt_fits hk) hlen _ hc
    rw [Dims.given?, hk]
    exact (congrArg (·[k]?) (congrArg Matrix.data hA)).trans hstore
  · cases f <;> first | (cases ha; done) | cases hk

/-- The run of a vector field holds the data, and the last row that repeats it does too. -/
theorem setVector_numbers (hr : q.setVector f i xs = .ok q') (hw : Qp.Written q.dims i f kind k) :
    (q'.numbers kind i)[k]? = q.dims.given? i f order xs kind k := by
  obtain ⟨hc, hk, hi, hlen, hstore, hrow⟩ := h.setVector_changed hr
  rw [Dims.given?, hk]
  simp only
  rcases hw with hw | ⟨block, col0, ha, rfl, ⟨hr1, hr2⟩, hc1, hc2⟩
  · obtain ⟨rfl, h1, h2⟩ := (Dims.owns_vector hk).mp hw
    have hrun := congrArg (·[k - (q.dims.vecSlotAt i f).offset]?) (VecSlot.drop_take_store? hstore)
    simp only [List.getElem?_take_of_lt (show k - (q.dims.vecSlotAt i f).offset < (q.dims.vecSlotAt i f).len by omega),
      List.getElem?_drop, Nat.add_sub_cancel' h1] at hrun
    rw [if_pos rfl]
    exact hrun
  · rw [if_neg (MatBlock.region_ne_vec _ _), ha]
    rcases hrow block col0 ha with ⟨M, hM, hentry⟩
    have hc1 : col0 ≤ k / (block.shape q.dims i).1 := hc1
    rw [hc.bound.matrix?_eq] at hM
    cases (Option.ite_none_right_eq_some.mp hM).2
    have hlast : k % (block.shape q.dims i).1 = (block.shape q.dims i).1 - 1 :=
      Nat.le_antisymm (Nat.le_of_lt_succ hr2) hr1
    have hcol : k / (block.shape q.dims i).1 - col0 < xs.length := by
      rw [← hlen]
      exact Nat.sub_lt_left_of_lt_add hc1 hc2
    have hread := hentry _ hcol
    have hrows : (q'.matrixAt block i).rows = (block.shape q.dims i).1 := by rw [Qp.matrixAt, hc.dims]
    rw [Nat.add_sub_cancel' hc1, Matrix.entry?, Matrix.index, hrows, ← hlast, Nat.mod_add_div] at hread
    exact hread

/-- Every entry that is written holds what the write gives. -/
theorem setFloats_numbers (hr : Qp.setFloats order i q f xs = .ok q') (hw : Qp.Written q.dims i f kind k) :
    (q'.numbers kind i)[k]? = q.dims.given? i f order xs kind k := by
  unfold Qp.setFloats at hr
  split at hr
  · exact setMatrix_numbers h hr hw
  · exact setVector_numbers h hr hw

end Numbers

/-- The writes share no entry. -/
def Apart (d : Dims) (v w : Write α) : Prop :=
  v.stage = w.stage → ∀ kind k, Qp.Written d v.stage v.field kind k → ¬ Qp.Written d w.stage w.field kind k

omit [Stored α] [Zero α] [Neg α] [LawfulStored α] in
theorem Apart.symm {d : Dims} {v w : Write α} (h : v.Apart d w) : w.Apart d v :=
  fun he kind k hw hv => h he.symm kind k hv hw

namespace Fits

variable {d : Dims} {i k : Nat} {kind : RegionKind}

omit [Stored α] [Zero α] [Neg α] [LawfulStored α]

theorem stage (s : d.Addressable) (hw : w.Fits d) : w.stage < w.field.count d.N := by
  rcases w with ⟨i, f, xs | ns⟩
  · exact ((Dims.fieldLength_eq_ok s).mp hw.2).1
  · exact ((Dims.fieldLength_eq_ok s).mp hw.2.1).1

theorem writes_float {xs : List α} (hw : w.Fits d) (hxs : w.data = .inl xs) (h : Qp.Written d i w.field kind k) :
    kind.isFloat = true := by
  unfold Write.Fits at hw
  rw [hxs] at hw
  exact Qp.written_isFloat hw.1 h

theorem writes_index {ns : List Nat} (hw : w.Fits d) (hns : w.data = .inr ns) (h : Qp.Written d i w.field kind k) :
    kind = w.field.idxBlock.region := by
  unfold Write.Fits at hw
  rw [hns] at hw
  exact Qp.written_index hw.1 h

end Fits

end Write

/-! ## A run of writes -/

namespace Qp

variable {α : Type} [Stored α] {q q₀ q' p : Qp α} {kind : RegionKind} {i k x : Nat}

/-- The entry has the same bytes in problems of the same dimensions and the same layout, counted
    from their bases. -/
theorem EntryByte.shift (hd : q'.dims = q.dims) (hl : q'.layout = q.layout)
    (e : q.EntryByte kind i k (q.block.base + x)) : q'.EntryByte kind i k (q'.block.base + x) := by
  have hplace : q'.placeOf kind i = q.placeOf kind i := by rw [placeOf, placeOf, hd, hl]
  obtain ⟨h1, h2, h3, h4⟩ := e
  exact ⟨hd ▸ h1, hd ▸ h2, by omega, by omega⟩

theorem EntryByte.rebase (hd : q'.dims = q.dims) (hl : q'.layout = q.layout) (hb : q'.block.base = q.block.base)
    (e : q.EntryByte kind i k x) : q'.EntryByte kind i k x := by
  obtain ⟨y, rfl⟩ : ∃ y, x = q.block.base + y := ⟨x - q.block.base, by have := e.start; omega⟩
  rw [← hb]
  exact e.shift hd hl

variable [Zero α] [Neg α]

/-- The writes are done in `q`, which is `q₀` in every other byte. -/
structure Carries (order : Order) (ws : List (Write α)) (q₀ q : Qp α) : Prop where
  bound : q.Bound
  dims : q.dims = q₀.dims
  layout : q.layout = q₀.layout
  base : q.block.base = q₀.block.base
  size : q.block.size = q₀.block.size
  numbers : ∀ w ∈ ws, ∀ xs, w.data = .inl xs → ∀ kind k, Written q₀.dims w.stage w.field kind k →
    (q.numbers kind w.stage)[k]? = q₀.dims.given? w.stage w.field order xs kind k
  indices : ∀ w ∈ ws, ∀ ns, w.data = .inr ns → q.getIndex w.field w.stage ns.length = .ok ns
  bytes : ∀ p, (∀ w ∈ ws, ∀ kind k, Written q₀.dims w.stage w.field kind k → ¬q₀.EntryByte kind w.stage k p) →
    q.block.bytes[p]? = q₀.block.bytes[p]?

variable [LawfulStored α] {order : Order} {ws : List (Write α)} {w : Write α}

/-- A write that is apart from those done keeps what they gave. -/
theorem Carries.snoc (c : Carries order ws q₀ q) (hfits : ∀ v ∈ ws, v.Fits q₀.dims) (hapart : ∀ v ∈ ws, v.Apart q₀.dims w)
    (hr : w.run order q = .ok q') : Carries order (ws ++ [w]) q₀ q' := by
  have ch := Write.run_changed c.bound hr
  have sh := c.bound.addressable
  rw [c.dims] at ch sh
  refine ⟨ch.bound, ch.dims.trans c.dims, ch.layout.trans c.layout, ch.base.trans c.base, ch.size.trans c.size,
    fun v hv xs hxs kind k hwritten => ?_, fun v hv ns hns => ?_, fun p hp => ?_⟩
  · rcases List.mem_append.mp hv with hv | hv
    · have hfit := hfits v hv
      have hstage := written_stage (hfit.stage sh) hwritten
      rw [← c.numbers v hv xs hxs kind k hwritten]
      refine ch.numbers_eq c.bound (hfit.writes_float hxs hwritten) (by rwa [c.dims]) fun hsame => ?_
      exact hapart v hv hsame kind k hwritten
    · have hvw := List.mem_singleton.mp hv
      subst hvw
      rcases v with ⟨i, f, data⟩
      cases hxs
      have hput : (q'.numbers kind i)[k]? = q.dims.given? i f order xs kind k :=
        Write.setFloats_numbers c.bound hr (by rwa [c.dims])
      rwa [c.dims] at hput
  · rcases List.mem_append.mp hv with hv | hv
    · rw [ch.getIndex c.bound (fun hsame kind k howns => ?_)]
      · exact c.indices v hv ns hns
      · rw [c.dims, ← hsame] at howns
        exact hapart v hv hsame kind k (.inl howns)
    · have hvw := List.mem_singleton.mp hv
      subst hvw
      rcases v with ⟨i, f, data⟩
      cases hns
      exact (c.bound.setIndex_changed hr).2.2
  · rw [ch.bytes p fun kind k hwritten e => ?_]
    · exact c.bytes p fun v hv => hp v (List.mem_append_left _ hv)
    · exact hp w (List.mem_append_right _ (List.mem_singleton.mpr rfl)) kind k hwritten
        (e.rebase c.dims.symm c.layout.symm c.base.symm)

theorem carries_of_runs (h : q₀.Bound) (hfits : ∀ w ∈ ws, w.Fits q₀.dims) (hapart : ws.Pairwise (Write.Apart q₀.dims))
    (hr : Write.runs order ws q₀ = .ok q) : Carries order ws q₀ q := by
  -- with the writes of `done` behind
  suffices hrun : ∀ (done : List (Write α)) (q₁ : Qp α), Carries order done q₀ q₁ →
      (∀ w ∈ done ++ ws, w.Fits q₀.dims) → (done ++ ws).Pairwise (Write.Apart q₀.dims) →
      Write.runs order ws q₁ = .ok q → Carries order (done ++ ws) q₀ q from
    hrun [] q₀ ⟨h, rfl, rfl, rfl, rfl, fun _ hw => absurd hw List.not_mem_nil, fun _ hw => absurd hw List.not_mem_nil,
      fun _ _ => rfl⟩ hfits hapart hr
  clear hfits hapart hr
  induction ws with
  | nil =>
    intro done q₁ c _ _ hr
    cases hr
    rwa [List.append_nil]
  | cons w ws ih =>
    intro done q₁ c hfits hapart hr
    rw [Write.runs, List.map_cons, inTurn_cons, Attempt.bind_eq_ok] at hr
    rcases hr with ⟨q₂, hw, hr⟩
    have hsplit : done ++ w :: ws = (done ++ [w]) ++ ws := by simp
    have hdone := (List.pairwise_append.mp hapart).2.2
    have c' := c.snoc (fun v hv => hfits v (List.mem_append_left _ hv))
      (fun v hv => hdone v hv w List.mem_cons_self) hw
    rw [hsplit] at hfits hapart ⊢
    exact ih (done ++ [w]) q₂ c' hfits hapart hr

/-! ## The span of the numbers -/

omit [Zero α] [Neg α] [LawfulStored α] in
/-- The arrays of numbers lie in the span of the numbers. -/
theorem Bound.floats_inside (h : q.Bound) (hf : kind.isFloat = true) (e : q.EntryByte kind i k (q.block.base + x)) :
    q.layout.floatSpan.1 ≤ x ∧ x < q.layout.floatSpan.2 := by
  obtain ⟨hm, hkind⟩ := h.layout.region_mem kind
  have hspan := h.layout.span _ hm
  rw [hkind, if_pos hf] at hspan
  have h1 := h.layout.array_inside e.stage
  have h2 := h.layout.region_inside kind
  have h3 := kind.bytes_le_stride (Stored.width α) q.dims i
  have h4 := Nat.mul_le_mul_right (kind.entryWidth (Stored.width α)) (show k + 1 ≤ _ from e.entry)
  have h5 := e.start
  have h6 := e.finish
  have hused : q.layout.floatSpan.2 = q.layout.used := rfl
  rw [Nat.succ_mul] at h4
  unfold placeOf at h5 h6
  unfold RegionKind.bytes at h3
  omega

omit [Zero α] [Neg α] [LawfulStored α] in
theorem Bound.indices_before (h : q.Bound) (hf : kind.isFloat = false) (e : q.EntryByte kind i k (q.block.base + x)) :
    x < q.layout.floatSpan.1 := by
  obtain ⟨hm, hkind⟩ := h.layout.region_mem kind
  have hspan := h.layout.span _ hm
  rw [hkind, hf, if_neg (by decide)] at hspan
  have h1 := h.layout.array_inside e.stage
  have h3 := kind.bytes_le_stride (Stored.width α) q.dims i
  have h4 := Nat.mul_le_mul_right (kind.entryWidth (Stored.width α)) (show k + 1 ≤ _ from e.entry)
  have h6 := e.finish
  rw [Nat.succ_mul] at h4
  unfold placeOf at h6
  unfold RegionKind.bytes at h3
  omega

/-- The bytes of the span of the numbers. -/
def floatBytes (q : Qp α) : Option (List UInt8) :=
  q.block.read? q.layout.floatSpan.1 (q.layout.floatSpan.2 - q.layout.floatSpan.1)

omit [Zero α] [Neg α] [LawfulStored α] in
theorem Bound.exists_floatBytes (h : q.Bound) : ∃ bs, q.floatBytes = some bs := by
  have hregion := h.layout.region_inside .BAbt
  have hroom := h.room
  unfold Region.finish at hregion
  refine Block.read?_isSome (?_ : q.block.base + (q.layout.region .BAbt).offset +
    (q.layout.used - (q.layout.region .BAbt).offset) ≤ q.block.size)
  omega

omit [Zero α] [Neg α] [LawfulStored α] in
theorem floatBytes_congr (hq : q.Bound) (hp : p.Bound) (hl : p.layout = q.layout)
    (h : ∀ x, q.layout.floatSpan.1 ≤ x → x < q.layout.floatSpan.2 →
      p.block.bytes[p.block.base + x]? = q.block.bytes[q.block.base + x]?) : p.floatBytes = q.floatBytes := by
  obtain ⟨bs, hbs⟩ := hq.exists_floatBytes
  obtain ⟨cs, hcs⟩ := hp.exists_floatBytes
  rw [hbs]
  unfold floatBytes at hbs hcs ⊢
  rw [hl] at hcs ⊢
  obtain ⟨-, hlen, hget⟩ := Block.read?_eq_some.mp hbs
  obtain ⟨hroom, -, -⟩ := Block.read?_eq_some.mp hcs
  refine Block.read?_eq_some.mpr ⟨hroom, hlen, fun r hr => ?_⟩
  rw [hget r hr, Nat.add_assoc, Nat.add_assoc]
  exact (h _ (Nat.le_add_right _ _) (by omega)).symm

omit [Neg α] in
/-- A number settles the bytes of its entry. -/
theorem Bound.byte_of_number (h : q.Bound) (hf : kind.isFloat = true) (e : q.EntryByte kind i k (q.block.base + x)) {v : α}
    (hv : (q.numbers kind i)[k]? = some v) :
    q.block.bytes[q.block.base + x]? = (Stored.encode v)[x - (q.placeOf kind i + k * Stored.width α)]? := by
  have hw : kind.entryWidth (Stored.width α) = Stored.width α := if_pos hf
  rcases h.numbers_entry hf e.stage e.entry with ⟨bs, hbs, hx⟩
  obtain ⟨-, hlen, hget⟩ := Block.read?_eq_some.mp hbs
  obtain rfl : Stored.decode bs = v := Option.some.inj (hx.symm.trans hv)
  have h1 := e.start
  have h2 := e.finish
  rw [hw] at hlen hget h1 h2
  obtain ⟨r, rfl⟩ : ∃ r, x = q.placeOf kind i + k * Stored.width α + r :=
    ⟨x - (q.placeOf kind i + k * Stored.width α), by omega⟩
  rw [LawfulStored.encode_decode bs hlen, Nat.add_sub_cancel_left, hget r (by omega),
    Nat.add_assoc q.block.base (q.placeOf kind i + k * Stored.width α) r]

/-- The numbers of `q` are those that `puts` names, and every other byte of their span is zero. -/
structure Leaves (puts : Nat → RegionKind → Nat → Option α → Prop) (q : Qp α) : Prop where
  float : ∀ i kind k v, puts i kind k v → kind.isFloat = true
  numbers : ∀ i kind k v, puts i kind k v → (q.numbers kind i)[k]? = v
  zeros : ∀ x, q.layout.floatSpan.1 ≤ x → x < q.layout.floatSpan.2 →
    (∀ i kind k v, puts i kind k v → ¬q.EntryByte kind i k (q.block.base + x)) → q.block.bytes[q.block.base + x]? = some 0

namespace Leaves

variable {puts : Nat → RegionKind → Nat → Option α → Prop}

omit [Neg α] in
/-- An entry that is not named is zero. -/
theorem zero_entry (l : Leaves puts q) (h : q.Bound) (hf : kind.isFloat = true) (hi : i < kind.count q.dims.N)
    (hk : k < kind.entries q.dims i) (hno : ∀ v, ¬puts i kind k v) : (q.numbers kind i)[k]? = some 0 := by
  rcases h.numbers_entry hf hi hk with ⟨bs, hbs, hx⟩
  obtain ⟨-, hlen, hget⟩ := Block.read?_eq_some.mp hbs
  have hw : kind.entryWidth (Stored.width α) = Stored.width α := if_pos hf
  have hzero : bs = Stored.encode (0 : α) := by
    rw [LawfulStored.encode_zero, List.eq_replicate_iff]
    refine ⟨hlen.trans hw, fun b hb => ?_⟩
    rcases List.getElem?_of_mem hb with ⟨r, hr⟩
    have hrw : r < kind.entryWidth (Stored.width α) := by
      rw [← hlen]
      exact (List.getElem?_eq_some_iff.mp hr).1
    have e : q.EntryByte kind i k (q.block.base + (q.placeOf kind i + k * kind.entryWidth (Stored.width α) + r)) :=
      ⟨hi, hk, by omega, by omega⟩
    obtain ⟨h1, h2⟩ := h.floats_inside hf e
    have hbyte := l.zeros _ h1 h2 fun i' kind' k' v hput e' => by
      obtain ⟨rfl, rfl, rfl⟩ := e.unique h e'
      exact hno v hput
    rw [hget r hrw, Nat.add_assoc, hbyte] at hr
    cases hr
    rfl
  rw [hx, hzero, LawfulStored.decode_encode]

omit [Neg α] in
/-- What is left settles every byte of the span. -/
theorem byte_eq (lq : Leaves puts q) (lp : Leaves puts p) (hq : q.Bound) (hp : p.Bound) (hd : p.dims = q.dims)
    (hl : p.layout = q.layout) (h1 : q.layout.floatSpan.1 ≤ x) (h2 : x < q.layout.floatSpan.2) :
    p.block.bytes[p.block.base + x]? = q.block.bytes[q.block.base + x]? := by
  by_cases hput : ∃ i kind k v, puts i kind k v ∧ q.EntryByte kind i k (q.block.base + x)
  · obtain ⟨i, kind, k, v, hput, e⟩ := hput
    have hf := lq.float _ _ _ _ hput
    have hplace : p.placeOf kind i = q.placeOf kind i := by rw [placeOf, placeOf, hd, hl]
    rcases hq.numbers_entry hf e.stage e.entry with ⟨bs, -, hx⟩
    have hx' := (lp.numbers _ _ _ _ hput).trans ((lq.numbers _ _ _ _ hput).symm.trans hx)
    rw [hq.byte_of_number hf e hx, hp.byte_of_number hf (e.shift hd hl) hx', hplace]
  · have hnone : ∀ i kind k v, puts i kind k v → ¬q.EntryByte kind i k (q.block.base + x) :=
      fun i kind k v hv e => hput ⟨i, kind, k, v, hv, e⟩
    rw [lq.zeros x h1 h2 hnone]
    refine lp.zeros x (hl ▸ h1) (hl ▸ h2) fun i kind k v hv e => ?_
    exact hnone i kind k v hv (e.shift hd.symm hl.symm)

omit [Neg α] in
theorem floatBytes_eq (lq : Leaves puts q) (lp : Leaves puts p) (hq : q.Bound) (hp : p.Bound) (hd : p.dims = q.dims)
    (hl : p.layout = q.layout) : p.floatBytes = q.floatBytes :=
  floatBytes_congr hq hp hl fun _ => lq.byte_eq lp hq hp hd hl

end Leaves

/-! ## Writes on cleared numbers -/

/-- One of the writes puts `v` at entry `k` of the array of a kind at stage `i`. -/
def Puts (order : Order) (d : Dims) (ws : List (Write α)) (i : Nat) (kind : RegionKind) (k : Nat) (v : Option α) : Prop :=
  ∃ w ∈ ws, ∃ xs, w.data = .inl xs ∧ w.stage = i ∧ Written d i w.field kind k ∧ d.given? i w.field order xs kind k = v

omit [Stored α] [Zero α] [Neg α] [LawfulStored α] in
theorem cleared_zero (hc : q.cleared = some q₀) (h1 : q.layout.floatSpan.1 ≤ x) (h2 : x < q.layout.floatSpan.2) :
    q₀.block.bytes[q₀.block.base + x]? = some 0 := by
  obtain ⟨-, -, hb⟩ := cleared_eq_some.mp hc
  rw [Block.base_write? hb]
  exact clearNumbers?_zero hb (Nat.add_le_add_left h1 _) (Nat.add_lt_add_left h2 _)

omit [Zero α] [LawfulStored α] in
/-- A run of writes on cleared numbers leaves what the writes put. -/
theorem Carries.leaves (c : Carries order ws q₀ q) (hfits : ∀ w ∈ ws, w.Fits q₀.dims) (hc : p.cleared = some q₀) :
    Leaves (Puts order q₀.dims ws) q where
  float := by
    rintro i kind k v ⟨w, hw, xs, hxs, -, hwritten, -⟩
    exact (hfits w hw).writes_float hxs hwritten
  numbers := by
    rintro i kind k v ⟨w, hw, xs, hxs, rfl, hwritten, rfl⟩
    exact c.numbers w hw xs hxs kind k hwritten
  zeros := by
    intro x h1 h2 hnone
    obtain ⟨-, hl, -⟩ := cleared_eq_some.mp hc
    have hlayout := c.layout.trans hl
    rw [c.bytes, c.base]
    · exact cleared_zero hc (hlayout ▸ h1) (hlayout ▸ h2)
    · intro w hw kind k hwritten e
      have e := e.rebase c.dims c.layout c.base
      cases hdata : w.data with
      | inl xs => exact hnone _ _ _ _ ⟨w, hw, xs, hdata, rfl, hwritten, rfl⟩ e
      | inr ns =>
        obtain rfl := (hfits w hw).writes_index hdata hwritten
        have := c.bound.indices_before (IdxBlock.isFloat_region _) e
        omega

end Qp

end HorizonQp
