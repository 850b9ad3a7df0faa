/-
  HorizonQp.Proofs.Layout.Exact — when a plan answers.

  `exactSize` is what a problem needs, in the natural numbers. A plan answers exactly when
  that fits a word, and then it is `planned`: no sum, product or rounding on the way wrapped,
  and no check on the way refused what fits as a whole (`plan_exact`). Otherwise it reports
  the overflow. Dimensions with one entry per stage are never a breach.

  Every quantity that a step checks is part of the size of some region, and the slack for
  aligning the base leaves room for the rounding of each: from the whole fitting a word
  follows that every step does (`stride_lt`, `room_lt`).
-/

import HorizonQp.Proofs.Layout.Planned

namespace HorizonQp

open Word (roundUp wrap limit wrap_of_lt)
open RegionKind (items heads floats)

namespace Layout

/-! ## The size -/

/-- The bytes that a problem needs, with the slack for aligning its base: the header tables
    and the index arrays, the matrices and slack weights of every stage, and the vectors. -/
def exactSize (size : Nat) (d : Dims) : Nat :=
  let overAll (f : Nat → Nat) := total ((List.range (d.N + 1)).map f)
  let overSteps (f : Nat → Nat) := total ((List.range d.N).map f)
  roundUp (16 * (2 * (d.N + 1)) + 32 * (d.N + 2 * (d.N + 1)) + 24 * (d.N + 4 * (d.N + 1)) +
      8 * overAll fun i => d.nbAt i + d.nsAt i) +
    overSteps (fun i => roundUp (size * (d.nuxAt i + 1) * d.nxAt (i + 1))) +
    overAll (fun i => roundUp (size * (d.nuxAt i + 1) * d.nuxAt i) + roundUp (size * d.nuxAt i * d.ngAt i) +
      roundUp (size * (2 * d.nsAt i))) +
    roundUp (size * overAll fun i => d.nuxAt i + 2 * d.nsAt i) +
    roundUp (size * overSteps fun i => d.nxAt (i + 1)) +
    2 * roundUp (2 * size * overAll fun i => d.nbAt i + d.ngAt i + d.nsAt i) +
    64

variable {size : Nat} {d : Dims}

/-! ### Each region as a whole -/

/-- The arrays of a packed region, taken together. -/
theorem total_stride (kind : RegionKind) (hp : kind.isPadded = false) (hf : kind.isFloat = true) (n : Nat) :
    total ((List.range n).map (kind.stride size d)) = size * total ((List.range n).map (kind.entries d)) := by
  rw [Nat.mul_comm, ← total_range_mul]
  congr 2
  funext i
  simp [RegionKind.stride, RegionKind.bytes, RegionKind.entryWidth, hp, hf]

/-- Both sides of the rows of all stages. -/
theorem total_ncAt (d : Dims) (n : Nat) :
    total ((List.range n).map d.ncAt) = 2 * total ((List.range n).map fun i => d.nbAt i + d.ngAt i + d.nsAt i) := by
  rw [Nat.mul_comm, ← total_range_mul]
  congr 2
  funext i
  exact Nat.mul_comm 2 _

theorem room_indices (size : Nat) (d : Dims) : RegionKind.idxb.room size d + RegionKind.idxs.room size d =
    8 * total ((List.range (d.N + 1)).map fun i => d.nbAt i + d.nsAt i) := by
  rw [total_map_add, Nat.mul_comm, Nat.add_mul, ← total_range_mul, ← total_range_mul]
  rfl

theorem room_dynamics (size : Nat) (d : Dims) : RegionKind.BAbt.room size d =
    total ((List.range d.N).map fun i => roundUp (size * (d.nuxAt i + 1) * d.nxAt (i + 1))) := by
  simp only [Nat.mul_comm size, Nat.mul_right_comm _ size]
  rfl

theorem room_stages (size : Nat) (d : Dims) :
    RegionKind.RSQrq.room size d + RegionKind.DCt.room size d + RegionKind.Z.room size d =
      total ((List.range (d.N + 1)).map fun i => roundUp (size * (d.nuxAt i + 1) * d.nuxAt i) +
        roundUp (size * d.nuxAt i * d.ngAt i) + roundUp (size * (2 * d.nsAt i))) := by
  simp only [Nat.mul_comm size, Nat.mul_right_comm _ size, total_map_add]
  rfl

theorem room_rows (size : Nat) (d : Dims) {kind : RegionKind} (hk : kind = .d ∨ kind = .m) :
    kind.room size d =
      roundUp (2 * size * total ((List.range (d.N + 1)).map fun i => d.nbAt i + d.ngAt i + d.nsAt i)) := by
  rw [Nat.mul_comm 2 size, Nat.mul_assoc, ← total_ncAt]
  rcases hk with rfl | rfl
  · exact congrArg roundUp (total_stride .d rfl rfl _)
  · exact congrArg roundUp (total_stride .m rfl rfl _)

theorem room_costs (size : Nat) (d : Dims) : RegionKind.rqz.room size d =
    roundUp (size * total ((List.range (d.N + 1)).map fun i => d.nuxAt i + 2 * d.nsAt i)) :=
  congrArg roundUp (total_stride .rqz rfl rfl _)

theorem room_equations (size : Nat) (d : Dims) :
    RegionKind.b.room size d = roundUp (size * total ((List.range d.N).map fun i => d.nxAt (i + 1))) :=
  congrArg roundUp (total_stride .b rfl rfl _)

theorem total_heads (size : Nat) (d : Dims) : total ((items size d heads).map (·.2)) =
    16 * (2 * (d.N + 1)) + 32 * (d.N + 2 * (d.N + 1)) + 24 * (d.N + 4 * (d.N + 1)) +
      8 * total ((List.range (d.N + 1)).map fun i => d.nbAt i + d.nsAt i) := by
  rw [← room_indices size d]
  simp only [items, heads, List.map_cons, List.map_nil, total_cons, total_nil]
  simp only [RegionKind.room, IdxHeader.width, MatHeader.width, VecHeader.width, Word.width]
  omega

theorem total_floats (size : Nat) (d : Dims) : total ((items size d floats).map (·.2)) =
    RegionKind.BAbt.room size d + (RegionKind.RSQrq.room size d + RegionKind.DCt.room size d + RegionKind.Z.room size d) +
      RegionKind.rqz.room size d + RegionKind.b.room size d + RegionKind.d.room size d + RegionKind.m.room size d := by
  simp only [items, floats, List.map_cons, List.map_nil, total_cons, total_nil]
  omega

/-- The planned bytes are the exact size. -/
theorem memsize_planned (size : Nat) (d : Dims) : (planned size d).memsize = exactSize size d := by
  show roundUp (total ((items size d heads).map (·.2))) + total ((items size d floats).map (·.2)) + 64 = _
  rw [total_heads, total_floats, room_dynamics, room_stages, room_costs, room_equations, room_rows size d (.inl rfl),
    room_rows size d (.inr rfl)]
  simp only [exactSize]
  omega

/-! ## What fits as a whole fits at every step -/

section Fits

variable (h : (planned size d).memsize < limit)
include h

theorem room_lt (kind : RegionKind) : kind.room size d + 64 < limit := by
  have hm : (planned size d).memsize = (frame size d).used + 64 := rfl
  obtain ⟨hlen, hfin⟩ := frame_region size d kind
  unfold Region.finish at hfin
  omega

theorem stride_lt (kind : RegionKind) {i : Nat} (hi : i < kind.count d.N) : kind.stride size d i + 64 < limit := by
  have hr := room_lt h kind
  have ht := kind.total_stride_le_room size d
  have hs : kind.stride size d i ≤ total ((List.range (kind.count d.N)).map (kind.stride size d)) :=
    le_total (List.mem_map_of_mem (List.mem_range.mpr hi))
  omega

/-- An array of `n` entries has fewer bytes than a word counts, and so fewer entries. -/
theorem entries_lt (hsize : 0 < size) (kind : RegionKind) (hf : kind.isFloat = true) {i : Nat}
    (hi : i < kind.count d.N) :
    kind.entries d i * size + 64 < limit ∧ kind.entries d i + 64 < limit := by
  have hs := stride_lt h kind hi
  have hb := kind.bytes_le_stride size d i
  have hw : kind.bytes size d i = kind.entries d i * size := by
    simp [RegionKind.bytes, RegionKind.entryWidth, hf]
  have hm : kind.entries d i ≤ kind.entries d i * size := Nat.le_mul_of_pos_right _ hsize
  omega

theorem fitsWords_of_lt (hsize : 0 < size) : d.FitsWords := by
  intro i hi
  have hv : d.nuxAt i + 2 * d.nsAt i + 64 < limit := (entries_lt h hsize .rqz rfl (show i < d.N + 1 by omega)).2
  have hc : d.ncAt i + 64 < limit := (entries_lt h hsize .d rfl (show i < d.N + 1 by omega)).2
  omega

end Fits

/-! ## Steps that answer -/

theorem counts_of_fits (s : d.Spanned) (hw : d.FitsWords) {i : Nat} (hi : i ≤ d.N) : counts d i = .ok (countsAt d i) := by
  obtain ⟨hux, hv, hc⟩ := hw i hi
  have hux' : d.nuAt i + d.nxAt i + 1 < limit := hux
  have hc' : 2 * (d.nbAt i + d.ngAt i + d.nsAt i) < limit := hc
  simp only [counts, Attempt.bind_eq_ok, Attempt.require_eq_ok, checked_eq_ok, s.nu_get hi, s.nx_get hi, s.ns_get hi,
    s.nb_get hi, s.ng_get hi, Option.bind_eq_bind, Option.bind_eq_some_iff, Word.add?_eq_some, Word.mul?_eq_some,
    Option.some.injEq, exists_eq_left', Attempt.pure_eq_ok]
  exact ⟨_, ⟨by omega, rfl⟩, _, ⟨hux, rfl⟩, _, ⟨_, ⟨by omega, rfl⟩, hv, rfl⟩, _,
    ⟨_, ⟨by omega, rfl⟩, _, ⟨by omega, rfl⟩, hc', rfl⟩, rfl⟩

theorem place_of_lt {items : List (RegionKind × Nat)} {cursor : Nat} (h : cursor + total (items.map (·.2)) < limit) :
    place cursor items = some (stack cursor items, cursor + total (items.map (·.2))) := by
  induction items generalizing cursor with
  | nil => rfl
  | cons item items ih =>
    obtain ⟨kind, len⟩ := item
    simp only [List.map_cons, total_cons, ← Nat.add_assoc] at h
    have hn : Word.add? cursor len = some (cursor + len) := Word.add?_eq_some.mpr ⟨by omega, rfl⟩
    simp only [place, hn, ih h, Option.bind_eq_bind, Option.bind_some, stack, List.map_cons, total_cons, Nat.add_assoc]
    rfl

theorem sizeMatrices?_of_lt {n : Nat} {shape : Nat → Nat × Nat} (hsize : 0 < size)
    (h : ∀ i < n, (shape i).1 * (shape i).2 * size + 64 < limit) :
    sizeMatrices? size ((List.range n).map shape) =
      some ((List.range n).map fun i => (shape i, roundUp ((shape i).1 * (shape i).2 * size))) := by
  rw [sizeMatrices?, mapM_of_forall (g := fun m => (m, roundUp (m.1 * m.2 * size))), List.map_map]
  · rfl
  · intro m hm
    obtain ⟨i, hi, rfl⟩ := List.mem_map.mp hm
    have hb := h i (List.mem_range.mp hi)
    have he : (shape i).1 * (shape i).2 ≤ (shape i).1 * (shape i).2 * size := Nat.le_mul_of_pos_right _ hsize
    have hbytes : Word.matrixBytes? size (shape i).1 (shape i).2 = some (roundUp ((shape i).1 * (shape i).2 * size)) :=
      Word.matrixBytes?_eq_some.mpr ⟨by omega, by omega, rfl⟩
    simp only [hbytes, Option.bind_eq_bind, Option.bind_some]
    rfl

theorem sizeWeights?_of_lt {n : Nat} {c : Nat → Counts} (hsize : 0 < size)
    (h : ∀ i < n, 2 * (c i).ns * size + 64 < limit) :
    sizeWeights? size ((List.range n).map c) =
      some ((List.range n).map fun i => (2 * (c i).ns, roundUp (2 * (c i).ns * size))) := by
  rw [sizeWeights?, mapM_of_forall (g := fun c => (2 * c.ns, roundUp (2 * c.ns * size))), List.map_map]
  · rfl
  · intro m hm
    obtain ⟨i, hi, rfl⟩ := List.mem_map.mp hm
    have hb := h i (List.mem_range.mp hi)
    have he : 2 * (c i).ns ≤ 2 * (c i).ns * size := Nat.le_mul_of_pos_right _ hsize
    have h2 : Word.mul? 2 (c i).ns = some (2 * (c i).ns) := Word.mul?_eq_some.mpr ⟨by omega, rfl⟩
    have hv : Word.vectorBytes? size (2 * (c i).ns) = some (roundUp (2 * (c i).ns * size)) :=
      Word.vectorBytes?_eq_some.mpr ⟨by omega, by omega, rfl⟩
    simp only [h2, hv, Option.bind_eq_bind, Option.bind_some]
    rw [wrap_of_lt (by omega)]
    rfl

theorem bind_answers {α β : Type} {x : Option α} {f : α → Option β} {a : α} (hx : x = some a)
    (hf : ∃ b, f a = some b) : ∃ b, (x >>= f) = some b := by
  rw [hx]
  exact hf

theorem lt_of_bytes_lt (hsize : 0 < size) {n : Nat} (h : roundUp (n * size) + 64 < limit) :
    n < limit ∧ n * size + 63 < limit := by
  have h1 := Word.le_roundUp (n * size)
  have h2 : n ≤ n * size := Nat.le_mul_of_pos_right _ hsize
  omega

theorem vectorBytes?_of_lt (hsize : 0 < size) {n : Nat} (h : roundUp (n * size) + 64 < limit) :
    Word.vectorBytes? size n = some (roundUp (n * size)) := by
  rcases lt_of_bytes_lt hsize h with ⟨hn, hbytes⟩
  exact Word.vectorBytes?_eq_some.mpr ⟨hn, hbytes, rfl⟩

/-- What fits a word can be arranged. -/
theorem arrange?_of_lt (s : d.Spanned) (hst : Word.allocates Word.width d.stages = true) (hsize : 0 < size)
    (h : (planned size d).memsize < limit) : ∃ l,
      arrange? d size ((List.range (d.N + 1)).map (countsAt d)) ((List.range d.N).map fun i => d.nxAt (i + 1)) = some l := by
  have fits : ∀ {n : Nat}, n + 64 < limit → n < limit := fun h => Nat.lt_of_le_of_lt (Nat.le_add_right _ 64) h
  have mul : ∀ {a b : Nat}, a * b < limit → Word.mul? a b = some (a * b) := fun h => Word.mul?_eq_some.mpr ⟨h, rfl⟩
  have sum : ∀ {ns : List Nat}, total ns < limit → Word.sum? ns = some (total ns) :=
    fun h => Word.sum?_eq_some.mpr ⟨h, rfl⟩
  have vector : ∀ {n : Nat}, roundUp (n * size) + 64 < limit → Word.vectorBytes? size n = some (roundUp (n * size)) :=
    fun h => vectorBytes?_of_lt hsize h
  have entries : ∀ {n : Nat}, roundUp (n * size) + 64 < limit → n < limit := fun h => (lt_of_bytes_lt hsize h).1
  have hend : roundUp (total ((items size d heads).map (·.2))) + total ((items size d floats).map (·.2)) + 64 < limit := h
  have hstart := Word.le_roundUp (total ((items size d heads).map (·.2)))
  -- every region fits, in the terms in which the arrangement sizes it
  have hheads : ∀ item ∈ items size d heads, item.2 + 64 < limit := by
    intro item hi
    obtain ⟨kind, -, rfl⟩ := List.mem_map.mp hi
    exact room_lt h kind
  have hfloats : ∀ item ∈ items size d floats, item.2 + 64 < limit := by
    intro item hi
    obtain ⟨kind, -, rfl⟩ := List.mem_map.mp hi
    exact room_lt h kind
  have hfront := (congrArg (place 0) (@items_heads size d s hst)).symm.trans (place_of_lt (by omega))
  have hback := (congrArg (place (numbersStart size d)) (items_floats size d)).symm.trans (place_of_lt (fits hend))
  rw [items_heads s hst] at hheads
  rw [items_floats] at hfloats
  simp only [List.forall_mem_cons] at hheads hfloats
  obtain ⟨hi, hm, hv, hb, hs, -⟩ := hheads
  obtain ⟨hBAbt, hRSQrq, hDCt, hZ, hrqz, hne, hrows, hrows', -⟩ := hfloats
  unfold arrange?
  rw [zipWith_range, List.map_map, List.map_map]
  refine bind_answers (sizeMatrices?_of_lt hsize fun i hi => (entries_lt h hsize .BAbt rfl hi).1) ?_
  refine bind_answers (sizeMatrices?_of_lt hsize fun i hi => (entries_lt h hsize .RSQrq rfl hi).1) ?_
  refine bind_answers (sizeMatrices?_of_lt hsize fun i hi => (entries_lt h hsize .DCt rfl hi).1) ?_
  refine bind_answers (sizeWeights?_of_lt hsize fun i hi => (entries_lt h hsize .Z rfl hi).1) ?_
  -- the tables and the index arrays
  refine bind_answers (mul (fits hi)) ?_
  refine bind_answers (mul (fits hm)) ?_
  refine bind_answers (mul (fits hv)) ?_
  refine bind_answers (sum (by unfold Word.width at hb; omega)) ?_
  refine bind_answers (mul (fits hb)) ?_
  refine bind_answers (sum (by unfold Word.width at hs; omega)) ?_
  refine bind_answers (mul (fits hs)) ?_
  refine bind_answers hfront ?_
  refine bind_answers (Word.bind_add?_eq_some.mpr ⟨by simp only [Word.cacheLine]; omega, rfl⟩) ?_
  -- the numbers
  refine bind_answers (sum (fits hBAbt)) ?_
  refine bind_answers (sum (fits hRSQrq)) ?_
  refine bind_answers (sum (fits hDCt)) ?_
  refine bind_answers (sum (fits hZ)) ?_
  refine bind_answers (sum (entries hrqz)) ?_
  refine bind_answers (vector hrqz) ?_
  refine bind_answers (sum (entries hne)) ?_
  refine bind_answers (vector hne) ?_
  refine bind_answers (sum (entries hrows)) ?_
  refine bind_answers (vector hrows) ?_
  refine bind_answers (sum (entries hrows)) ?_
  refine bind_answers (vector hrows) ?_
  rw [Nat.zero_add, Word.alignUp_cacheLine (by omega)]
  refine bind_answers hback ?_
  refine bind_answers (Word.add?_eq_some.mpr ⟨hend, rfl⟩) ?_
  exact ⟨_, rfl⟩

/-! ## The plan -/

theorem overflow_fails {α : Type} (o : Option α) :
    Attempt.FailsWith (· = .reported overflow) (Attempt.orReport overflow o) :=
  Attempt.FailsWith.orReport (P := (· = .reported overflow)) rfl o

theorem counts_fails (s : d.Spanned) {i : Nat} (hi : i ≤ d.N) :
    Attempt.FailsWith (· = .reported overflow) (counts d i) := by
  unfold counts
  rw [s.nu_get hi, s.nx_get hi, s.ns_get hi, s.nb_get hi, s.ng_get hi]
  simp only [Attempt.require_some, Attempt.ok_bind]
  exact (overflow_fails _).bind fun _ _ => (overflow_fails _).bind fun _ _ => (overflow_fails _).bind fun _ _ =>
    (overflow_fails _).bind fun _ _ => Attempt.FailsWith.ok _

theorem stages_of_fits (s : d.Spanned) (hw : d.FitsWords) :
    overStages (counts d) 0 d.stages = .ok ((List.range (d.N + 1)).map (countsAt d)) := by
  refine overStages_eq_ok.mpr ⟨by simp [Dims.stages], fun i hi => ⟨countsAt d i, ?_, ?_⟩⟩
  · rw [List.getElem?_map, List.getElem?_range (show i < d.N + 1 from hi), Option.map_some]
  · rw [Nat.zero_add]
    exact counts_of_fits s hw (Nat.le_of_lt_succ hi)

/-- A plan for dimensions with one entry per stage is no breach. -/
theorem plan_fails (s : d.Spanned) (hst : Word.allocates Word.width d.stages = true) :
    Attempt.FailsWith (· = .reported overflow) (plan size d) := by
  rw [plan, if_pos hst, overStages_some_map (g := fun i => d.nxAt (i + 1)) fun i hi => s.ne_get hi]
  simp only [Attempt.require_some, Attempt.ok_bind]
  refine (Attempt.FailsWith.overStages fun i hi => ?_).bind fun cs _ => overflow_fails _
  rw [Nat.zero_add]
  exact counts_fails s (Nat.le_of_lt_succ hi)

theorem plan_of_lt (s : d.Spanned) (hst : Word.allocates Word.width d.stages = true) (hsize : 0 < size)
    (h : (planned size d).memsize < limit) : plan size d = .ok (planned size d) := by
  obtain ⟨l, hl⟩ := arrange?_of_lt s hst hsize h
  have hp : plan size d = .ok l := by
    rw [plan, if_pos hst, stages_of_fits s (fitsWords_of_lt h hsize),
      overStages_some_map (g := fun i => d.nxAt (i + 1)) fun i hi => s.ne_get hi, Attempt.ok_bind, Attempt.require_some,
      Attempt.ok_bind, hl]
    rfl
  rw [hp, (plan_eq_ok s hp).1]

/-- Sizing is exact. A plan for dimensions with one entry per stage, whose arrays exist in
    memory, answers exactly when the size fits a word, with the layout in the natural numbers. -/
theorem plan_exact (size : Nat) (d : Dims) (hsize : 0 < size) (s : d.Shaped)
    (hmem : Word.allocates Word.width d.nx.length = true) :
    (exactSize size d < limit →
      plan size d = .ok (planned size d) ∧ (planned size d).memsize = exactSize size d ∧
        (planned size d).used = exactSize size d - 64 ∧ required? size d = some (exactSize size d)) ∧
    (limit ≤ exactSize size d →
      plan size d = .error (.reported (.capacityExceeded Word.greatest Word.maxBytes)) ∧
        required? size d = some Word.greatest) := by
  have hst : Word.allocates Word.width d.stages = true := by rwa [s.nx] at hmem
  have hm := memsize_planned size d
  constructor
  · intro h
    have hp := plan_of_lt s.spanned hst hsize (by rwa [hm])
    refine ⟨hp, hm, ?_, by rw [required?, hp, ← hm]⟩
    rw [← hm]
    rfl
  · intro h
    have hp : plan size d = .error (.reported overflow) := by
      have hno : ∀ l, plan size d ≠ .ok l := by
        intro l hl
        obtain ⟨rfl, hlt, -⟩ := plan_eq_ok s.spanned hl
        omega
      obtain ⟨_, hp, rfl⟩ := (plan_fails s.spanned hst).exists_error hno
      exact hp
    exact ⟨hp, by rw [required?, hp]⟩

/-- A single stage with nothing but slacks. -/
def slacksOnly (n : Nat) : Dims := ⟨0, [0], [0], [0], [0], [0], [0], [n]⟩

/-- The greatest number of slacks that a stage can have, and one more. -/
theorem plan_exact_at_limit :
    exactSize 8 (slacksOnly 256204778801521544) = 18446744073709551424 ∧
      plan 8 (slacksOnly 256204778801521544) = .ok (planned 8 (slacksOnly 256204778801521544)) ∧
      exactSize 8 (slacksOnly 256204778801521545) = 18446744073709551744 ∧
      plan 8 (slacksOnly 256204778801521545) = .error (.reported (.capacityExceeded Word.greatest Word.maxBytes)) := by
  have shaped : ∀ n, (slacksOnly n).Shaped := fun n => ⟨rfl, rfl, rfl, rfl, rfl, rfl, rfl⟩
  have fit : exactSize 8 (slacksOnly 256204778801521544) = 18446744073709551424 := by decide
  have past : exactSize 8 (slacksOnly 256204778801521545) = 18446744073709551744 := by decide
  have h := plan_exact 8 (slacksOnly 256204778801521544) (by decide) (shaped _) (by decide)
  have h' := plan_exact 8 (slacksOnly 256204778801521545) (by decide) (shaped _) (by decide)
  exact ⟨fit, (h.1 (by rw [fit]; decide)).1, past, (h'.2 (by rw [past]; decide)).1⟩

end Layout

end HorizonQp
