/-
  HorizonQp.Proofs.Layout.Sound — what a layout keeps.

  A layout is `Sound` for dimensions when its regions lie in order inside the covered
  bytes, its headers are those of the places of the arrays, and every array fits its
  region, also after the bounds of a stage have moved to another: the rows of `d` and `m`
  have room for as many bounds as `idxb` has. A plan is sound (`planned_sound`), and what
  follows about two arrays of one block comes from soundness alone (`region_apart`,
  `array_inside`).
-/

import HorizonQp.Proofs.Layout.Planned

namespace HorizonQp

open Word (limit)
open RegionKind (items heads floats)

namespace RegionKind

/-- What the offset of a region is a multiple of. -/
def alignment (kind : RegionKind) : Nat := if kind.isFloat then Word.cacheLine else Word.width

end RegionKind

namespace Layout

/-- The number of bounds, over all stages, that the block has room for. -/
def boundCapacity (l : Layout) : Nat := (l.region .idxb).len / Word.width

structure Sound (l : Layout) (size : Nat) (d : Dims) : Prop where
  kinds : l.regions.map Region.kind = RegionKind.all
  ordered : l.regions.Pairwise fun r s => r.finish ≤ s.offset
  inside : ∀ r ∈ l.regions, r.finish ≤ l.used
  aligned : ∀ r ∈ l.regions, r.kind.alignment ∣ r.offset
  /-- The numbers start where the first of them does. -/
  span : ∀ r ∈ l.regions, if r.kind.isFloat then l.floatSpan.1 ≤ r.offset else r.finish ≤ l.floatSpan.1
  memsize : l.memsize = l.used + Word.cacheLine
  memsize_lt : l.memsize < limit
  idxHeaders : l.idxHeaders = l.idxTable size d
  matHeaders : l.matHeaders = l.matTable size d
  vecHeaders : l.vecHeaders = l.vecTable size d
  idxRoom : (l.region .idxHeaders).len = 2 * (d.N + 1) * IdxHeader.width
  matRoom : (l.region .matHeaders).len = (d.N + 2 * (d.N + 1)) * MatHeader.width
  vecRoom : (l.region .vecHeaders).len = (d.N + 4 * (d.N + 1)) * VecHeader.width
  /-- The arrays of a kind fit its region. -/
  fits : ∀ kind, l.offsetOf size d kind (kind.count d.N) ≤ (l.region kind).finish
  /-- The rows of every bound there is room for fit as well. -/
  rows : ∀ kind, kind = .d ∨ kind = .m →
    2 * (l.boundCapacity + total ((List.range (d.N + 1)).map d.ngAt) + total ((List.range (d.N + 1)).map d.nsAt)) * size ≤
      (l.region kind).len
  words : d.FitsWords

/-! ## Stacks of regions -/

theorem stack_inside {items : List (RegionKind × Nat)} {cursor : Nat} :
    ∀ r ∈ stack cursor items, cursor ≤ r.offset ∧ r.finish ≤ cursor + total (items.map (·.2)) := by
  induction items generalizing cursor with
  | nil => intro r hr; cases hr
  | cons item items ih =>
    intro r hr
    rw [List.map_cons, total_cons]
    rcases List.mem_cons.mp hr with rfl | hr
    · exact ⟨Nat.le_refl _, by simp only [Region.finish]; omega⟩
    · have := ih r hr
      omega

theorem stack_ordered (items : List (RegionKind × Nat)) (cursor : Nat) :
    (stack cursor items).Pairwise fun r s => r.finish ≤ s.offset := by
  induction items generalizing cursor with
  | nil => exact List.Pairwise.nil
  | cons item items ih => exact List.pairwise_cons.mpr ⟨fun s hs => (stack_inside s hs).1, ih _⟩

theorem stack_kinds (items : List (RegionKind × Nat)) (cursor : Nat) :
    (stack cursor items).map Region.kind = items.map (·.1) := by
  induction items generalizing cursor with
  | nil => rfl
  | cons item items ih => simp only [stack, List.map_cons, ih]

theorem stack_dvd {m : Nat} {items : List (RegionKind × Nat)} {cursor : Nat} (hc : m ∣ cursor)
    (h : ∀ item ∈ items, m ∣ item.2) : ∀ r ∈ stack cursor items, m ∣ r.offset := by
  induction items generalizing cursor with
  | nil => intro r hr; cases hr
  | cons item items ih =>
    intro r hr
    rcases List.mem_cons.mp hr with rfl | hr
    · exact hc
    · exact ih (Nat.dvd_add hc (h item (List.mem_cons_self ..))) (fun x hx => h x (List.mem_cons_of_mem _ hx)) r hr

/-! ## A plan is sound -/

theorem dvd_total {m : Nat} {ns : List Nat} (h : ∀ n ∈ ns, m ∣ n) : m ∣ total ns := by
  induction ns with
  | nil => exact Nat.dvd_zero m
  | cons n ns ih => exact Nat.dvd_add (h n (List.mem_cons_self ..)) (ih fun x hx => h x (List.mem_cons_of_mem _ hx))

/-- A region of numbers is whole cache lines, and every other region whole words. -/
theorem alignment_dvd_room (size : Nat) (d : Dims) (kind : RegionKind) : kind.alignment ∣ kind.room size d := by
  have padded : ∀ (kind : RegionKind) n, kind.isPadded = true → 64 ∣ total ((List.range n).map (kind.stride size d)) := by
    intro kind n hp
    refine dvd_total fun x hx => ?_
    obtain ⟨i, -, rfl⟩ := List.mem_map.mp hx
    unfold RegionKind.stride
    rw [if_pos hp]
    exact Word.dvd_roundUp _
  have words : ∀ (kind : RegionKind) n, kind.isPadded = false → kind.isFloat = false →
      8 ∣ total ((List.range n).map (kind.stride size d)) := by
    intro kind n hp hf
    refine dvd_total fun x hx => ?_
    obtain ⟨i, -, rfl⟩ := List.mem_map.mp hx
    simp only [RegionKind.stride, RegionKind.bytes, RegionKind.entryWidth, hp, hf, Bool.false_eq_true, if_false]
    exact Nat.dvd_mul_left _ _
  cases kind with
  | idxHeaders => exact Nat.dvd_mul_left_of_dvd (by decide) _
  | matHeaders => exact Nat.dvd_mul_left_of_dvd (by decide) _
  | vecHeaders => exact Nat.dvd_mul_left_of_dvd (by decide) _
  | idxb => exact words .idxb _ rfl rfl
  | idxs => exact words .idxs _ rfl rfl
  | BAbt => exact padded .BAbt _ rfl
  | RSQrq => exact padded .RSQrq _ rfl
  | DCt => exact padded .DCt _ rfl
  | Z => exact padded .Z _ rfl
  | rqz => exact Word.dvd_roundUp _
  | b => exact Word.dvd_roundUp _
  | d => exact Word.dvd_roundUp _
  | m => exact Word.dvd_roundUp _

theorem heads_isFloat {kind : RegionKind} (h : kind ∈ heads) : kind.isFloat = false := by
  revert kind; decide

theorem floats_isFloat {kind : RegionKind} (h : kind ∈ floats) : kind.isFloat = true := by
  revert kind; decide

theorem kind_mem_of_stack {size : Nat} {d : Dims} {kinds : List RegionKind} {cursor : Nat} {r : Region}
    (h : r ∈ stack cursor (items size d kinds)) : r.kind ∈ kinds := by
  have := List.mem_map_of_mem (f := Region.kind) h
  rw [stack_kinds] at this
  simpa [items] using this

theorem frame_aligned (size : Nat) (d : Dims) : ∀ r ∈ (frame size d).regions, r.kind.alignment ∣ r.offset := by
  intro r hr
  rcases List.mem_append.mp hr with hr | hr
  · have hk : r.kind.alignment = 8 := by
      unfold RegionKind.alignment
      rw [heads_isFloat (kind_mem_of_stack hr)]
      rfl
    rw [hk]
    refine stack_dvd (Nat.dvd_zero 8) (fun item hitem => ?_) r hr
    obtain ⟨kind, hkind, rfl⟩ := List.mem_map.mp hitem
    have := alignment_dvd_room size d kind
    unfold RegionKind.alignment at this
    rwa [heads_isFloat hkind] at this
  · have hk : r.kind.alignment = 64 := by
      unfold RegionKind.alignment
      rw [floats_isFloat (kind_mem_of_stack hr)]
      rfl
    rw [hk]
    refine stack_dvd (Word.dvd_roundUp _) (fun item hitem => ?_) r hr
    obtain ⟨kind, hkind, rfl⟩ := List.mem_map.mp hitem
    have := alignment_dvd_room size d kind
    unfold RegionKind.alignment at this
    rwa [floats_isFloat hkind] at this

theorem frame_ordered (size : Nat) (d : Dims) :
    (frame size d).regions.Pairwise fun r s => r.finish ≤ s.offset := by
  refine List.pairwise_append.mpr ⟨stack_ordered _ _, stack_ordered _ _, fun r hr s hs => ?_⟩
  have h1 := (stack_inside r hr).2
  have h2 := (stack_inside s hs).1
  have h3 := Word.le_roundUp (total ((items size d heads).map (·.2)))
  unfold numbersStart at h2
  omega

theorem frame_inside (size : Nat) (d : Dims) : ∀ r ∈ (frame size d).regions, r.finish ≤ (frame size d).used := by
  intro r hr
  have h := Word.le_roundUp (total ((items size d heads).map (·.2)))
  show r.finish ≤ numbersStart size d + total ((items size d floats).map (·.2))
  rcases List.mem_append.mp hr with hr | hr
  · have := (stack_inside r hr).2
    unfold numbersStart
    omega
  · exact (stack_inside r hr).2

theorem frame_span (size : Nat) (d : Dims) :
    ∀ r ∈ (frame size d).regions,
      if r.kind.isFloat then numbersStart size d ≤ r.offset else r.finish ≤ numbersStart size d := by
  intro r hr
  rcases List.mem_append.mp hr with hr | hr
  · rw [heads_isFloat (kind_mem_of_stack hr)]
    have h1 := (stack_inside r hr).2
    have h2 := Word.le_roundUp (total ((items size d heads).map (·.2)))
    simp only [Bool.false_eq_true, if_false]
    unfold numbersStart
    omega
  · rw [floats_isFloat (kind_mem_of_stack hr)]
    exact (stack_inside r hr).1

/-- The inequality rows of all stages. -/
theorem total_rows (nb ng ns : Nat → Nat) (n : Nat) :
    total ((List.range n).map fun i => 2 * (nb i + ng i + ns i)) =
      2 * (total ((List.range n).map nb) + total ((List.range n).map ng) + total ((List.range n).map ns)) := by
  rw [← total_map_add, ← total_map_add, Nat.mul_comm, ← total_range_mul]
  congr 1
  exact List.map_congr_left fun i _ => Nat.mul_comm _ _

theorem planned_sound {size : Nat} {d : Dims} (hm : (planned size d).memsize < limit) (hw : d.FitsWords) :
    (planned size d).Sound size d where
  kinds := by
    show (stack 0 (items size d heads) ++ stack _ (items size d floats)).map Region.kind = _
    rw [List.map_append, stack_kinds, stack_kinds]
    rfl
  ordered := frame_ordered size d
  inside := frame_inside size d
  aligned := frame_aligned size d
  span := frame_span size d
  memsize := rfl
  memsize_lt := hm
  idxHeaders := rfl
  matHeaders := rfl
  vecHeaders := rfl
  idxRoom := rfl
  matRoom := rfl
  vecRoom := rfl
  fits := by
    intro kind
    have hlen := (frame_region size d kind).1
    have := kind.total_stride_le_room size d
    show ((frame size d).region kind).offset + _ ≤ ((frame size d).region kind).offset + ((frame size d).region kind).len
    omega
  rows := by
    have hcap : (planned size d).boundCapacity = total ((List.range (d.N + 1)).map d.nbAt) := by
      show total ((List.range (d.N + 1)).map fun i => d.nbAt i * 8) / 8 = _
      rw [total_range_mul]
      omega
    have hrows : total ((List.range (d.N + 1)).map fun i => d.ncAt i * size) =
        2 * ((planned size d).boundCapacity + total ((List.range (d.N + 1)).map d.ngAt) +
          total ((List.range (d.N + 1)).map d.nsAt)) * size := by
      rw [hcap, ← total_rows, total_range_mul]
      rfl
    rintro kind (rfl | rfl)
    · rw [← hrows]
      exact Word.le_roundUp _
    · rw [← hrows]
      exact Word.le_roundUp _
  words := hw

theorem plan_sound {size : Nat} {d : Dims} (s : d.Spanned) {l : Layout} (h : plan size d = .ok l) : l.Sound size d := by
  obtain ⟨rfl, hm, hw⟩ := plan_eq_ok s h
  exact planned_sound hm hw

/-! ## Regions and arrays of a sound layout -/

namespace Sound

variable {l : Layout} {size : Nat} {d : Dims} (h : l.Sound size d)
include h

theorem region_mem (kind : RegionKind) : l.region kind ∈ l.regions ∧ (l.region kind).kind = kind := by
  have hk : kind ∈ l.regions.map Region.kind := by
    rw [h.kinds]
    cases kind <;> decide
  obtain ⟨r, hr, rfl⟩ := List.mem_map.mp hk
  obtain ⟨r', hr'⟩ : ∃ r', l.regions.find? (·.kind == r.kind) = some r' := by
    rw [← Option.isSome_iff_exists, List.find?_isSome]
    exact ⟨r, hr, by simp⟩
  have hreg : l.region r.kind = r' := by rw [region, hr', Option.getD_some]
  rw [hreg]
  exact ⟨List.mem_of_find?_eq_some hr', by simpa using List.find?_some hr'⟩

theorem region_inside (kind : RegionKind) : (l.region kind).finish ≤ l.used := h.inside _ (h.region_mem kind).1

theorem region_lt (kind : RegionKind) : (l.region kind).finish < limit := by
  have h1 := h.region_inside kind
  have h2 := h.memsize
  have h3 := h.memsize_lt
  omega

/-- A word counts the entries of all arrays of a kind. -/
theorem total_entries_lt (hs : 0 < size) (kind : RegionKind) :
    total ((List.range (kind.count d.N)).map (kind.entries d)) < limit := by
  have hwidth : 0 < kind.entryWidth size := Nat.pos_of_ne_zero fun h0 => by
    unfold RegionKind.entryWidth at h0
    split at h0
    · omega
    · cases h0
  have hle := total_map_le fun i (_ : i ∈ List.range (kind.count d.N)) =>
    Nat.le_trans (Nat.le_mul_of_pos_right _ hwidth) (kind.bytes_le_stride size d i)
  have hfit := h.fits kind
  have hlt := h.region_lt kind
  unfold offsetOf at hfit
  omega

/-- Regions lie in the order of their kinds. -/
theorem region_before {kind kind' : RegionKind} (hlt : RegionKind.all.idxOf kind < RegionKind.all.idxOf kind') :
    (l.region kind).finish ≤ (l.region kind').offset := by
  obtain ⟨hm, hk⟩ := h.region_mem kind
  obtain ⟨hm', hk'⟩ := h.region_mem kind'
  obtain ⟨i, hi, hgi⟩ := List.getElem_of_mem hm
  obtain ⟨j, hj, hgj⟩ := List.getElem_of_mem hm'
  have place : ∀ i (hi : i < l.regions.length), RegionKind.all.idxOf l.regions[i].kind = i := by
    intro i hi
    have hall : i < RegionKind.all.length := by rwa [← h.kinds, List.length_map]
    have hget : RegionKind.all[i] = l.regions[i].kind := by simp only [← h.kinds, List.getElem_map]
    rw [← hget]
    exact List.Nodup.idxOf_getElem (by decide) i hall
  rw [← hk, ← hk', ← hgi, ← hgj, place, place] at hlt
  rw [← hgi, ← hgj]
  exact List.pairwise_iff_getElem.mp h.ordered i j hi hj hlt

/-- Two regions do not meet. -/
theorem region_apart {kind kind' : RegionKind} (hne : kind ≠ kind') :
    (l.region kind).finish ≤ (l.region kind').offset ∨ (l.region kind').finish ≤ (l.region kind).offset := by
  have hplaces : RegionKind.all.idxOf kind ≠ RegionKind.all.idxOf kind' := by
    revert hne
    cases kind <;> cases kind' <;> decide
  rcases Nat.lt_or_gt_of_ne hplaces with hlt | hlt
  · exact Or.inl (h.region_before hlt)
  · exact Or.inr (h.region_before hlt)

theorem entryWidth_dvd_region (hs : size ∣ 8) (kind : RegionKind) : kind.entryWidth size ∣ (l.region kind).offset := by
  obtain ⟨hm, hk⟩ := h.region_mem kind
  have ha := h.aligned _ hm
  rw [hk] at ha
  refine Nat.dvd_trans ?_ ha
  unfold RegionKind.entryWidth RegionKind.alignment
  split
  · exact Nat.dvd_trans hs (by decide)
  · exact Nat.dvd_refl _

/-- An array starts at a multiple of its element size. -/
theorem entryWidth_dvd_offsetOf (hs : size ∣ 8) (kind : RegionKind) (i : Nat) :
    kind.entryWidth size ∣ l.offsetOf size d kind i :=
  l.width_dvd_offsetOf d hs kind (h.entryWidth_dvd_region hs kind) i

/-- An array lies inside the region of its kind. -/
theorem array_inside {kind : RegionKind} {i : Nat} (hi : i < kind.count d.N) :
    (l.region kind).offset ≤ l.offsetOf size d kind i ∧
      l.offsetOf size d kind i + kind.stride size d i ≤ (l.region kind).finish := by
  have h1 := l.offsetOf_mono size d kind (Nat.zero_le i)
  have h2 := l.offsetOf_mono size d kind (show i + 1 ≤ kind.count d.N from hi)
  have h3 := h.fits kind
  rw [offsetOf_zero] at h1
  rw [offsetOf_succ] at h2
  omega

/-- Two arrays of one block do not meet. -/
theorem array_apart {kind kind' : RegionKind} {i j : Nat} (hi : i < kind.count d.N) (hj : j < kind'.count d.N)
    (hne : (kind, i) ≠ (kind', j)) :
    l.offsetOf size d kind i + kind.bytes size d i ≤ l.offsetOf size d kind' j ∨
      l.offsetOf size d kind' j + kind'.bytes size d j ≤ l.offsetOf size d kind i := by
  have h1 := h.array_inside hi
  have h2 := h.array_inside hj
  have h3 := kind.bytes_le_stride size d i
  have h4 := kind'.bytes_le_stride size d j
  by_cases hk : kind = kind'
  · subst hk
    rcases Nat.lt_trichotomy i j with hij | rfl | hij
    · exact Or.inl (l.offsetOf_apart size d kind hij)
    · exact absurd rfl hne
    · exact Or.inr (l.offsetOf_apart size d kind hij)
  · rcases h.region_apart hk with h5 | h5
    · left; omega
    · right; omega

end Sound

end Layout

end HorizonQp
