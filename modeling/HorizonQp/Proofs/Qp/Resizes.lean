/-
  HorizonQp.Proofs.Qp.Resizes — changes of bounds, one after the other.

  What a change of bounds reads does not depend on the bounds: the regions, the counts of
  inputs, states, rows and slacks, and the rows that the slacks soften. What it writes hides
  what the change before it wrote. So a change answers the same whatever changes went before
  it (`Bound.resize_resize`), and a sequence of them leaves what the last accepted one alone
  would have left (`Bound.resizes_eq`). The bounds that a problem has lead back to the problem
  itself (`Bound.resize_own`).
-/

import HorizonQp.Proofs.Qp.Resizing

namespace HorizonQp

open Block (AgreeBut)

/-! ## Packing again -/

theorem getElem?_replaceFrom {α : Type} {xs new : List α} {first : Nat} (h : first + new.length ≤ xs.length) (k : Nat) :
    (replaceFrom xs first new)[k]? = if first ≤ k ∧ k < first + new.length then new[k - first]? else xs[k]? := by
  have hl : (xs.take first).length = first := by rw [List.length_take]; omega
  unfold replaceFrom
  by_cases h1 : k < first
  · rw [List.append_assoc, List.getElem?_append_left (by omega), List.getElem?_take_of_lt h1, if_neg (by omega)]
  by_cases h2 : k < first + new.length
  · rw [List.append_assoc, List.getElem?_append_right (by omega), hl, List.getElem?_append_left (by omega),
      if_pos (by omega)]
  · rw [List.getElem?_append_right (by rw [List.length_append]; omega), List.length_append, hl, List.getElem?_drop,
      if_neg (by omega)]
    congr 1
    omega

theorem length_replaceFrom {α : Type} {xs new : List α} {first : Nat} (h : first + new.length ≤ xs.length) :
    (replaceFrom xs first new).length = xs.length := by
  simp only [replaceFrom, List.length_append, List.length_take, List.length_drop]
  omega

/-- What is replaced again was not worth replacing. -/
theorem replaceFrom_again {α : Type} {xs old new : List α} {first : Nat} (hlen : old.length = new.length)
    (h : first + new.length ≤ xs.length) : replaceFrom (replaceFrom xs first old) first new = replaceFrom xs first new := by
  apply List.ext_getElem?
  intro k
  rw [getElem?_replaceFrom (by rw [length_replaceFrom (by omega)]; exact h), getElem?_replaceFrom (by omega),
    getElem?_replaceFrom h, hlen]
  split <;> rfl

theorem replaceFrom_comm {α : Type} {xs a b : List α} {first second : Nat} (hap : first + a.length ≤ second)
    (h : second + b.length ≤ xs.length) :
    replaceFrom (replaceFrom xs second b) first a = replaceFrom (replaceFrom xs first a) second b := by
  apply List.ext_getElem?
  intro k
  rw [getElem?_replaceFrom (by rw [length_replaceFrom h]; omega), getElem?_replaceFrom h,
    getElem?_replaceFrom (by rw [length_replaceFrom (by omega)]; exact h), getElem?_replaceFrom (by omega)]
  by_cases h1 : first ≤ k ∧ k < first + a.length
  · rw [if_pos h1, if_neg (by omega), if_pos h1]
  · rw [if_neg h1, if_neg h1]

/-- Two adjacent parts, replaced twice. -/
theorem replaceFrom_pair {α : Type} {xs a b a' b' : List α} {N : Nat} (h : xs.length = N + 4 * (N + 1))
    (ha : a.length = N + 1) (hb : b.length = N + 1) (ha' : a'.length = N + 1) (hb' : b'.length = N + 1) :
    replaceFrom (replaceFrom (replaceFrom (replaceFrom xs (2 * N + 1) a) (3 * N + 2) b) (2 * N + 1) a') (3 * N + 2) b' =
      replaceFrom (replaceFrom xs (2 * N + 1) a') (3 * N + 2) b' := by
  have hlen := @length_replaceFrom _ xs a (2 * N + 1) (by omega)
  have hlen' := @length_replaceFrom _ xs a' (2 * N + 1) (by omega)
  have hswap := @replaceFrom_comm _ (replaceFrom xs (2 * N + 1) a) a' b (2 * N + 1) (3 * N + 2) (by omega) (by omega)
  rw [hswap, replaceFrom_again (ha.trans ha'.symm) (by omega), replaceFrom_again (hb.trans hb'.symm) (by omega)]

namespace Layout

theorem length_packVectors (size offset : Nat) (lens : List Nat) : (packVectors size offset lens).length = lens.length := by
  induction lens generalizing offset with
  | nil => rfl
  | cons len lens ih => rw [packVectors, List.length_cons, ih, List.length_cons]

/-- Layouts with the same headers of indices and of vectors, and all else the same. -/
theorem headers_congr {l : Layout} {i i' : List IdxHeader} {v v' : List VecHeader} (hi : i = i') (hv : v = v') :
    ({ l with idxHeaders := i, vecHeaders := v } : Layout) = { l with idxHeaders := i', vecHeaders := v' } := by
  rw [hi, hv]

/-- Packing again hides what was packed before. -/
theorem repack_repack {l : Layout} {size N : Nat} {nb nc nb' nc' : List Nat} (hi : l.idxHeaders.length = 2 * (N + 1))
    (hv : l.vecHeaders.length = N + 4 * (N + 1)) (hb : nb.length = N + 1) (hc : nc.length = N + 1)
    (hb' : nb'.length = N + 1) (hc' : nc'.length = N + 1) :
    (l.repack size N nb nc).repack size N nb' nc' = l.repack size N nb' nc' := by
  have hpack : ∀ offset {lens}, lens.length = N + 1 → (packVectors size offset lens).length = N + 1 :=
    fun offset _ h => (length_packVectors size offset _).trans h
  have hidx : replaceFrom (replaceFrom l.idxHeaders 0 (packIndices (l.region .idxb).offset nb)) 0
      (packIndices (l.region .idxb).offset nb') = replaceFrom l.idxHeaders 0 (packIndices (l.region .idxb).offset nb') :=
    replaceFrom_again (by rw [length_packIndices, length_packIndices, hb, hb']) (by rw [length_packIndices]; omega)
  exact headers_congr hidx (replaceFrom_pair hv (hpack _ hc) (hpack _ hc) (hpack _ hc') (hpack _ hc'))

end Layout

/-! ## One change after another -/

theorem Attempt.bind_congr_ok {ε α β : Type} {x : Attempt ε α} {f g : α → Attempt ε β}
    (h : ∀ a, x = .ok a → f a = g a) : (x >>= f) = (x >>= g) := by
  cases x with
  | error failure => rfl
  | ok a => exact h a rfl

namespace Qp

variable {α : Type} [Stored α] [FixedWidth α]

section After

variable {q q' : Qp α} (h : q.Bound) {nbu nbx : List Nat} (hr : q.resize nbu nbx = .ok q')
include h hr

theorem resize_checkSoftRows (nb : List Nat) (i : Nat) : q'.checkSoftRows nb i = q.checkSoftRows nb i := by
  have hd := (h.resize_parts hr).2.2.1
  unfold checkSoftRows
  rw [resize_idxs h hr, hd]
  rfl

theorem resize_checkCapacity (kind : RegionKind) (size : Nat) (lens : List Nat) :
    q'.layout.checkCapacity kind size lens = q.layout.checkCapacity kind size lens := by
  have hregion := Layout.region_congr (h.resize_resized hr).regions kind
  unfold Layout.checkCapacity
  rw [hregion]

/-- What the tables held does not matter to the change that follows. -/
theorem resize_writeHeaders? {l : Layout} (hl : l.regions = q.layout.regions) :
    l.writeHeaders? q'.block = l.writeHeaders? q.block := by
  refine Layout.writeHeaders?_congr ((resize_agree h hr).mono fun k => ?_)
  rintro ⟨kind, hk, hin⟩
  exact ⟨kind, hk, by rwa [Layout.region_congr hl]⟩

/-- A change of bounds answers as if the one before it had not been. -/
theorem Bound.resize_resize (nbu' nbx' : List Nat) : q'.resize nbu' nbx' = q.resize nbu' nbx' := by
  obtain ⟨hd', -, hd, hl, hw⟩ := h.resize_parts hr
  have hsoft : ∀ nb, q'.checkSoftRows nb = q.checkSoftRows nb := fun nb => funext (resize_checkSoftRows h hr nb)
  have hrows : ∀ nb, rowsWith? (q.dims.withBounds nbu nbx) nb = rowsWith? q.dims nb := fun _ => rfl
  unfold Qp.resize
  simp only [hsoft, resize_checkCapacity h hr, hd, hrows, Dims.withBounds_N, Dims.withBounds_stages,
    Dims.withBounds_nx, Dims.withBounds_nu, Dims.withBounds_ng, Dims.withBounds_ns]
  refine Attempt.bind_congr_ok fun _ hu => Attempt.bind_congr_ok fun _ hx => ?_
  have hu : q.dims.N + 1 = nbu'.length := checkLength_eq_ok.mp (Attempt.ofExcept_eq_ok.mp hu)
  have hx : q.dims.N + 1 = nbx'.length := checkLength_eq_ok.mp (Attempt.ofExcept_eq_ok.mp hx)
  have hnb : (Dims.joinBounds nbu' nbx').length = q.dims.N + 1 := by
    rw [Dims.length_joinBounds]
    omega
  cases splitFault? q.dims.nx q.dims.nu nbu' nbx' with
  | some stage => rfl
  | none =>
    by_cases hlen : nbu'.length < q.dims.nx.length
    · simp only [if_pos hlen]
      rfl
    · simp only [if_neg hlen]
      refine Attempt.bind_congr_ok fun nc hnc => ?_
      have hnc : nc.length = q.dims.N + 1 := (overStages_eq_some.mp (Attempt.require_eq_ok.mp hnc)).1
      have hpack : q'.layout.repack (Stored.width α) q.dims.N (Dims.joinBounds nbu' nbx') nc =
          q.layout.repack (Stored.width α) q.dims.N (Dims.joinBounds nbu' nbx') nc := by
        rw [hl]
        refine Layout.repack_repack ?_ ?_ hd'.spans.nb (by simp) hnb hnc
        · rw [h.layout.idxHeaders, Layout.length_idxTable]
        · rw [h.layout.vecHeaders, Layout.length_vecTable]
      have hblock : (q.layout.repack (Stored.width α) q.dims.N (Dims.joinBounds nbu' nbx') nc).writeHeaders? q'.block =
          (q.layout.repack (Stored.width α) q.dims.N (Dims.joinBounds nbu' nbx') nc).writeHeaders? q.block :=
        resize_writeHeaders? h hr rfl
      rw [hpack, hblock]

end After

/-- The bounds that a problem has lead back to it. -/
theorem Bound.resize_own {q q' : Qp α} (h : q.Bound) (hr : q.resize q.dims.nbu q.dims.nbx = .ok q') : q' = q := by
  obtain ⟨hd', hcap, hd, hl, hw⟩ := h.resize_parts hr
  have hdims : q.dims.withBounds q.dims.nbu q.dims.nbx = q.dims := by
    have hnb := h.dims.2.1
    unfold Dims.withBounds
    rw [← hnb]
  have hlayout : q.layout.rebound (Stored.width α) q.dims q.dims.nbu q.dims.nbx = q.layout := by
    have hidx := Layout.rebound_idxHeaders h.layout hd' hcap
    have hvec := Layout.rebound_vecHeaders h.layout hcap
    rw [hdims] at hidx hvec
    have hi : (q.layout.rebound (Stored.width α) q.dims q.dims.nbu q.dims.nbx).idxHeaders = q.layout.idxHeaders :=
      hidx.trans h.layout.idxHeaders.symm
    have hv : (q.layout.rebound (Stored.width α) q.dims q.dims.nbu q.dims.nbx).vecHeaders = q.layout.vecHeaders :=
      hvec.trans h.layout.vecHeaders.symm
    exact Layout.headers_congr hi hv
  rw [hlayout] at hl
  rw [hl] at hw
  rw [hdims] at hd
  have hblock := Layout.writeHeaders?_held_eq h.held hw
  obtain ⟨dims, layout, block⟩ := q
  obtain ⟨dims', layout', block'⟩ := q'
  cases hd
  cases hl
  cases hblock
  rfl

theorem Bound.resize_own_iff {q : Qp α} (h : q.Bound) :
    q.resize q.dims.nbu q.dims.nbx = .ok q ↔ ∀ i ≤ q.dims.N, ∃ idxs, q.indices? .idxs i = some idxs ∧
      ∀ k ∈ idxs, k < q.dims.nbuAt i + q.dims.nbxAt i + q.dims.ngAt i := by
  have s := h.dims.shaped
  constructor
  · intro hr
    exact (h.resize_isOk_iff.mp ⟨q, hr⟩).softened
  · intro hsoft
    have hfit := h.layout.fits .idxb
    have hcap : total (List.zipWith (· + ·) q.dims.nbu q.dims.nbx) ≤ q.layout.boundCapacity := by
      rw [← h.dims.2.1, h.spans.nb_eq]
      refine (Nat.le_div_iff_mul_le (by decide)).mpr ?_
      change (q.layout.region .idxb).offset + total ((List.range (q.dims.N + 1)).map fun i => q.dims.nbAt i * Word.width) ≤
        (q.layout.region .idxb).offset + (q.layout.region .idxb).len at hfit
      rw [Layout.total_range_mul] at hfit
      omega
    obtain ⟨q', hr⟩ := h.resize_isOk_iff.mpr
      ⟨s.nbu, s.nbx, fun i hi => ((Dims.consistent_iff.mp h.dims).2 i hi).2, hsoft, hcap⟩
    rw [hr, h.resize_own hr]

/-! ## Sequences of changes -/

section Sequences

variable [Neg α]

/-- The problem after a sequence of changes of bounds, any of which may be refused. -/
def resizes (q : Qp α) (splits : List (List Nat × List Nat)) : Qp α :=
  splits.foldl (fun q split => (Call.resize split.1 split.2).after q) q

/-- Whether a split would be accepted. -/
def takes (q : Qp α) (split : List Nat × List Nat) : Bool := (q.resize split.1 split.2).isOk

omit [FixedWidth α] in
theorem after_resize_cases (q : Qp α) (split : List Nat × List Nat) :
    (q.takes split = true ∧ q.resize split.1 split.2 = .ok ((Call.resize split.1 split.2).after q)) ∨
      (q.takes split = false ∧ (Call.resize split.1 split.2).after q = q) := by
  cases hr : q.resize split.1 split.2 with
  | error failure => exact Or.inr ⟨by rw [takes, hr]; rfl, Call.after_of_error hr⟩
  | ok q' => exact Or.inl ⟨by rw [takes, hr]; rfl, by rw [Call.after_of_ok (c := .resize split.1 split.2) hr]⟩

variable {q : Qp α} (h : q.Bound)
include h

/-- No change before it alters the answer of a change. -/
theorem Bound.after_resize (split : List Nat × List Nat) (nbu nbx : List Nat) :
    ((Call.resize split.1 split.2).after q).resize nbu nbx = q.resize nbu nbx := by
  rcases after_resize_cases q split with ⟨-, hr⟩ | ⟨-, ha⟩
  · exact h.resize_resize hr nbu nbx
  · rw [ha]

theorem Bound.resizes_resize (splits : List (List Nat × List Nat)) (nbu nbx : List Nat) :
    (q.resizes splits).resize nbu nbx = q.resize nbu nbx := by
  induction splits generalizing q with
  | nil => rfl
  | cons split splits ih => exact (ih (call_bound h _)).trans (h.after_resize split nbu nbx)

/-- A sequence of changes leaves what the last one accepted leaves. -/
theorem Bound.resizes_eq (splits : List (List Nat × List Nat)) : q.resizes splits =
    match (splits.filter q.takes).getLast? with
    | none => q
    | some split => (Call.resize split.1 split.2).after q := by
  induction splits generalizing q with
  | nil => rfl
  | cons split splits ih =>
    have hstep : q.resizes (split :: splits) = ((Call.resize split.1 split.2).after q).resizes splits := rfl
    rw [hstep, ih (call_bound h _)]
    have htakes : ((Call.resize split.1 split.2).after q).takes = q.takes := by
      funext s
      unfold takes
      rw [h.after_resize split]
    have hlast : ∀ s, q.takes s = true →
        (Call.resize s.1 s.2).after ((Call.resize split.1 split.2).after q) = (Call.resize s.1 s.2).after q := by
      intro s hs
      rcases after_resize_cases q s with ⟨-, hr⟩ | ⟨hn, -⟩
      · rcases after_resize_cases ((Call.resize split.1 split.2).after q) s with ⟨-, hr'⟩ | ⟨hn', -⟩
        · rw [h.after_resize split, hr] at hr'
          exact (Except.ok.inj hr').symm
        · rw [htakes, hs] at hn'
          cases hn'
      · rw [hs] at hn
        cases hn
    rw [htakes, List.filter_cons]
    cases hl : (splits.filter q.takes).getLast? with
    | none =>
      rw [List.getLast?_eq_none_iff.mp hl]
      rcases after_resize_cases q split with ⟨ht, -⟩ | ⟨ht, ha⟩
      · rw [if_pos ht]
        rfl
      · rw [ht, if_neg Bool.false_ne_true, ha]
        rfl
    | some s =>
      have hs : q.takes s = true := (List.mem_filter.mp (List.mem_of_getLast? hl)).2
      have hcons : (if q.takes split = true then split :: splits.filter q.takes else splits.filter q.takes).getLast? =
          some s := by
        split
        · rw [List.getLast?_cons, hl, Option.getD_some]
        · exact hl
      rw [hcons]
      exact hlast s hs

end Sequences

/-! ## All of it -/

variable [Neg α]

/-- How changes of bounds behave on a problem whose block was laid out for `capacity` bounds. -/
structure ResizesExactly (q : Qp α) (capacity : Nat) : Prop where
  accepted : ∀ nbu nbx, (∃ q', q.resize nbu nbx = .ok q') ↔ q.Accepts capacity nbu nbx
  /-- What is refused is reported, and nothing has changed. -/
  refused : ∀ nbu nbx, ¬ q.Accepts capacity nbu nbx →
    (∃ e, q.resize nbu nbx = .error (.reported e)) ∧ (Call.resize nbu nbx).after q = q
  /-- For a split that suits the stages no sum wraps, and the capacity for `d` never decides. -/
  sums : ∀ nbu nbx, nbu.length = q.dims.N + 1 → nbx.length = q.dims.N + 1 →
    (∀ i ≤ q.dims.N, nbu.getD i 0 ≤ q.dims.nuAt i ∧ nbx.getD i 0 ≤ q.dims.nxAt i) → q.Sums nbu nbx
  resized : ∀ nbu nbx q', q.resize nbu nbx = .ok q' → q.Resized q' nbu nbx
  /-- A change made again changes nothing. -/
  again : ∀ nbu nbx q', q.resize nbu nbx = .ok q' → q'.resize nbu nbx = .ok q'
  /-- The bounds of before lead back to the problem of before, if they keep the softened rows. -/
  back : ∀ nbu nbx q', q.resize nbu nbx = .ok q' → (q'.resize q.dims.nbu q.dims.nbx = .ok q ↔
    ∀ i ≤ q.dims.N, ∃ idxs, q.indices? .idxs i = some idxs ∧
      ∀ k ∈ idxs, k < q.dims.nbuAt i + q.dims.nbxAt i + q.dims.ngAt i)
  /-- A sequence of changes leaves what the last of those leaves that are accepted at the start. -/
  last : ∀ splits, q.resizes splits =
    match (splits.filter q.takes).getLast? with
    | none => q
    | some split => (Call.resize split.1 split.2).after q
  /-- Every change after it answers as at the start. -/
  later : ∀ splits nbu nbx, (q.resizes splits).resize nbu nbx = q.resize nbu nbx

theorem Bound.resizes_exactly {q : Qp α} (h : q.Bound) : q.ResizesExactly q.layout.boundCapacity where
  accepted _ _ := h.resize_isOk_iff
  refused nbu nbx hno := by
    have hne : ∀ q', q.resize nbu nbx ≠ .ok q' := fun q' hr => hno (h.resize_isOk_iff.mp ⟨q', hr⟩)
    obtain ⟨failure, hf, hbreach⟩ := (@Bound.resize_fails _ _ q nbu nbx _ h).exists_error hne
    refine ⟨?_, ?_⟩
    · cases failure with
      | reported e => exact ⟨e, hf⟩
      | breach => exact absurd rfl hbreach
    · exact Call.after_of_error hf
  sums nbu nbx hu hx hs := h.sums ((withBounds_consistent_iff h).mpr ⟨hu, hx, hs⟩)
  resized _ _ _ hr := Bound.resize_resized h hr
  again _ _ _ hr := (h.resize_resize hr _ _).trans hr
  back _ _ _ hr := by
    rw [h.resize_resize hr]
    exact h.resize_own_iff
  last := h.resizes_eq
  later := h.resizes_resize

/-- A problem laid out for consistent dimensions, whatever calls it went through since, accepts
    the splits with no more bounds than it was laid out for, and changes of bounds leave no
    trace of those before them. -/
theorem resizes_exactly_of_bind {d : Dims} {b : Block} {q : Qp α} (hd : d.Consistent) (hb : bind d b = .ok q)
    (calls : List (Call α)) : (calls.foldl Call.after q).ResizesExactly (total d.nb) := by
  obtain ⟨hbound, hregions⟩ := calls_regions (bound_of_bind hd hb) calls
  have hcap : (calls.foldl Call.after q).layout.boundCapacity = total d.nb := by
    rw [Layout.boundCapacity_congr hregions, Layout.boundCapacity_plan hd.shaped.spanned (bind_eq_ok.mp hb).2.1]
  rw [← hcap]
  exact hbound.resizes_exactly

/-- A slack on the last row of the first stage: the bound on its input can move to its second
    state and back, but cannot be dropped, nor stay where it is beside one on that state. -/
theorem resizes_exactly_softened : ∃ q q' : Qp Binary.Double,
    q.dims = ⟨1, [2, 1], [1, 0], [2, 1], [1, 0], [1, 1], [1, 0], [1, 0]⟩ ∧ q.indices? .idxs 0 = some [2] ∧
    q.resize [0, 0] [2, 1] = .ok q' ∧ q'.resize [1, 0] [1, 1] = .ok q ∧
    (∃ e, q.resize [0, 0] [1, 1] = .error (.reported e)) ∧ ∃ e, q.resize [1, 0] [2, 1] = .error (.reported e) := by
  have hd : Dims.Consistent ⟨1, [2, 1], [1, 0], [2, 1], [1, 0], [1, 1], [1, 0], [1, 0]⟩ := by decide
  obtain ⟨q₀, hb, hq₀, -⟩ := @bind_filled Binary.Double _ _ hd _ rfl
  obtain ⟨q, hw, hdims, hidxs, -⟩ := (bound_of_bind hd hb).exists_indices .idxs (i := 0)
    (by rw [hq₀]; decide) [2] (by rw [hq₀]; rfl) (by decide)
  rw [hq₀] at hdims
  have hx := resizes_exactly_of_bind hd hb [.writeIndices .idxs 0 [2]]
  have hq : [Call.writeIndices .idxs 0 [2]].foldl Call.after q₀ = q :=
    Call.after_of_ok (Attempt.require_eq_ok.mpr hw)
  rw [hq] at hx
  have hq' : q.Bound := hq ▸ (calls_regions (bound_of_bind hd hb) [.writeIndices .idxs 0 [2]]).1
  have hlast : q.indices? .idxs 1 = some [] := by
    have hcount : 1 < IdxBlock.idxs.region.count q.dims.N := by rw [hdims]; decide
    rw [hq'.indices?_eq, if_pos hcount, List.length_eq_zero_iff.mp ((hq'.length_words rfl hcount).trans (by rw [hdims]; rfl))]
  -- A split that suits the two stages is accepted when it keeps row 2 of the first one.
  have accepts : ∀ nbu nbx : List Nat, nbu.length = 2 → nbx.length = 2 →
      (∀ i < 2, nbu.getD i 0 ≤ [1, 0].getD i 0 ∧ nbx.getD i 0 ≤ [2, 1].getD i 0) →
      2 < nbu.getD 0 0 + nbx.getD 0 0 + 1 → total (List.zipWith (· + ·) nbu nbx) ≤ 3 → q.Accepts 3 nbu nbx := by
    intro nbu nbx hu hx' hs hrow htotal
    refine ⟨by rw [hdims]; exact hu, by rw [hdims]; exact hx', ?_, ?_, htotal⟩
    · rw [hdims]
      exact fun i hi => hs i (Nat.lt_succ_of_le hi)
    · rw [hdims]
      rintro (_ | _ | i) hi
      · exact ⟨[2], hidxs, fun k hk => List.mem_singleton.mp hk ▸ hrow⟩
      · exact ⟨[], hlast, fun _ hk => absurd hk List.not_mem_nil⟩
      · exact absurd hi (by show ¬ i + 1 + 1 ≤ 1; omega)
  obtain ⟨q', hr⟩ := (hx.accepted [0, 0] [2, 1]).mpr (accepts _ _ rfl rfl (by decide) (by decide) (by decide))
  refine ⟨q, q', hdims, hidxs, hr, ?_, (hx.refused _ _ fun ha => ?_).1, (hx.refused _ _ fun ha => ?_).1⟩
  · have hback := (hx.back _ _ q' hr).mpr (by
      have hsoft := (accepts [1, 0] [1, 1] rfl rfl (by decide) (by decide) (by decide)).softened
      rw [hdims] at hsoft ⊢
      exact hsoft)
    rwa [hdims] at hback
  · obtain ⟨idxs, hidxs', hrows⟩ := ha.softened 0 (Nat.zero_le _)
    cases hidxs.symm.trans hidxs'
    have hrow := hrows 2 (List.mem_singleton.mpr rfl)
    rw [hdims] at hrow
    exact absurd hrow (by decide)
  · exact absurd ha.capacity (by decide)

end Qp

end HorizonQp
