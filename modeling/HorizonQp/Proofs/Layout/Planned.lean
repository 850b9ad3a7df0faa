/-
  HorizonQp.Proofs.Layout.Planned — the plan in closed form.

  A plan that succeeds is `planned`: regions as long as their arrays need
  (`RegionKind.room`), one behind the other with the numbers on a cache line, and headers
  at the places of `offsetOf`. Nothing in it wrapped (`plan_eq_ok`).
-/

import HorizonQp.Proofs.Layout.Places
import HorizonQp.Proofs.Outcome

namespace HorizonQp

open Word (roundUp wrap limit wrap_of_lt)

namespace Layout

/-! ## Arrays one behind the other -/

section Packing

variable {ι H : Type} (g : Nat → List ι → List H) (mk : ι → Nat → H) (len : ι → Nat)

/-- Items placed by a running offset lie where the lengths before them add up to. -/
theorem packed_eq (hnil : ∀ o, g o [] = []) (hcons : ∀ o x xs, g o (x :: xs) = mk x o :: g (wrap (o + len x)) xs)
    {o : Nat} {xs : List ι} (h : o + total (xs.map len) < limit) :
    g o xs = xs.mapIdx fun i x => mk x (o + total ((xs.take i).map len)) := by
  induction xs generalizing o with
  | nil => rw [hnil]; rfl
  | cons x xs ih =>
    rw [List.map_cons, total_cons, ← Nat.add_assoc] at h
    rw [hcons, wrap_of_lt (by omega), ih h, List.mapIdx_cons]
    simp [Nat.add_assoc]

theorem packed_range (hnil : ∀ o, g o [] = []) (hcons : ∀ o x xs, g o (x :: xs) = mk x o :: g (wrap (o + len x)) xs)
    {o n : Nat} {f : Nat → ι} (h : o + total ((List.range n).map fun i => len (f i)) < limit) :
    g o ((List.range n).map f) = rowOf (fun i => mk (f i) (o + total ((List.range i).map fun i => len (f i)))) n := by
  have hm : ∀ k, ((List.range k).map f).map len = (List.range k).map fun i => len (f i) := fun k => by
    rw [List.map_map]; rfl
  rw [packed_eq g mk len hnil hcons (by rwa [hm])]
  apply List.ext_getElem?
  intro i
  by_cases hi : i < n
  · rw [List.getElem?_mapIdx, List.getElem?_map, List.getElem?_range hi, getElem?_rowOf _ hi, ← List.map_take,
      List.take_range, Nat.min_eq_left (by omega), hm]
    rfl
  · rw [List.getElem?_eq_none (by simp; omega), List.getElem?_eq_none (by simp; omega)]

/-- A wrapped length is the length, where all of them fit a word. -/
theorem total_wrap {n o : Nat} {f : Nat → Nat} (h : o + total ((List.range n).map f) < limit) {i : Nat} (hi : i ≤ n) :
    (List.range i).map (fun j => wrap (f j)) = (List.range i).map f := by
  apply List.map_congr_left
  intro j hj
  have hj' : j < n := by have := List.mem_range.mp hj; omega
  have : f j ≤ total ((List.range n).map f) := le_total (List.mem_map_of_mem (List.mem_range.mpr hj'))
  exact wrap_of_lt (by omega)

theorem rowOf_congr {H : Type} {f f' : Nat → H} {n : Nat} (h : ∀ i < n, f i = f' i) : rowOf f n = rowOf f' n :=
  List.map_congr_left fun i hi => h i (List.mem_range.mp hi)

end Packing

theorem packIndices_range {o n : Nat} {f : Nat → Nat}
    (h : o + total ((List.range n).map fun i => f i * Word.width) < limit) :
    packIndices o ((List.range n).map f) =
      rowOf (fun i => ⟨o + total ((List.range i).map fun i => f i * Word.width), f i⟩) n := by
  have hw := fun i (hi : i ≤ n) => total_wrap h hi
  rw [packed_range packIndices (fun x o => ⟨o, x⟩) (fun x => wrap (x * Word.width)) (fun _ => rfl)
    (fun _ _ _ => rfl) (by rwa [hw n (Nat.le_refl n)])]
  exact rowOf_congr fun i hi => by rw [hw i (by omega)]

theorem packVectors_range {size o n : Nat} {f : Nat → Nat}
    (h : o + total ((List.range n).map fun i => f i * size) < limit) :
    packVectors size o ((List.range n).map f) =
      rowOf (fun i => ⟨f i, o + total ((List.range i).map fun i => f i * size), f i * size⟩) n := by
  have hw := fun i (hi : i ≤ n) => total_wrap h hi
  rw [packed_range (packVectors size) (fun x o => ⟨x, o, wrap (x * size)⟩) (fun x => wrap (x * size))
    (fun _ => rfl) (fun _ _ _ => rfl) (by rwa [hw n (Nat.le_refl n)])]
  refine rowOf_congr fun i hi => ?_
  have : f i * size ≤ total ((List.range n).map fun i => f i * size) :=
    le_total (List.mem_map_of_mem (f := fun i => f i * size) (List.mem_range.mpr hi))
  rw [hw i (by omega), wrap_of_lt (by omega)]

theorem stackMatrices_range {o n : Nat} {shape : Nat → Nat × Nat} {mem : Nat → Nat}
    (h : o + total ((List.range n).map mem) < limit) :
    stackMatrices o ((List.range n).map fun i => (shape i, mem i)) =
      rowOf (fun i => ⟨(shape i).1, (shape i).2, o + total ((List.range i).map mem), mem i⟩) n :=
  packed_range stackMatrices (fun x o => ⟨x.1.1, x.1.2, o, x.2⟩) (fun x => x.2) (fun _ => rfl) (fun _ _ _ => rfl)
    (f := fun i => (shape i, mem i)) h

theorem stackVectors_range {o n : Nat} {f mem : Nat → Nat} (h : o + total ((List.range n).map mem) < limit) :
    stackVectors o ((List.range n).map fun i => (f i, mem i)) =
      rowOf (fun i => ⟨f i, o + total ((List.range i).map mem), mem i⟩) n :=
  packed_range stackVectors (fun x o => ⟨x.1, o, x.2⟩) (fun x => x.2) (fun _ => rfl) (fun _ _ _ => rfl)
    (f := fun i => (f i, mem i)) h

section Rows

variable {size : Nat} {d : Dims} (l : Layout)

/-- Packed index arrays have the headers of their places. -/
theorem packIndices_row (block : IdxBlock) (h : l.offsetOf size d block.region (d.N + 1) < limit) :
    packIndices (l.region block.region).offset ((List.range (d.N + 1)).map (block.len d)) =
      rowOf (l.idxHeader size d block) (d.N + 1) := by
  cases block <;> exact packIndices_range h

theorem packVectors_row (block : VecBlock) (hp : block.region.isPadded = false)
    (h : l.offsetOf size d block.region (block.region.count d.N) < limit) :
    packVectors size (l.region block.region).offset ((List.range (block.region.count d.N)).map (block.len d)) =
      rowOf (l.vecHeader size d block) (block.region.count d.N) := by
  cases block with
  | Z => cases hp
  | b => exact packVectors_range h
  | rqz => exact packVectors_range h
  | d => exact packVectors_range h
  | m => exact packVectors_range h

theorem stackMatrices_row (block : MatBlock)
    (h : l.offsetOf size d block.region (block.region.count d.N) < limit) :
    stackMatrices (l.region block.region).offset
        ((List.range (block.region.count d.N)).map fun i => (block.shape d i, block.region.stride size d i)) =
      rowOf (l.matHeader size d block) (block.region.count d.N) := stackMatrices_range h

theorem stackVectors_row (h : l.offsetOf size d .Z (d.N + 1) < limit) :
    stackVectors (l.region .Z).offset
        ((List.range (d.N + 1)).map fun i => (VecBlock.len d i .Z, RegionKind.Z.stride size d i)) =
      rowOf (l.vecHeader size d .Z) (d.N + 1) := stackVectors_range h

end Rows

/-! ## Regions one behind the other -/

def stack (cursor : Nat) : List (RegionKind × Nat) → List Region
  | [] => []
  | (kind, len) :: rest => ⟨kind, cursor, len⟩ :: stack (cursor + len) rest

theorem place_eq_some {items : List (RegionKind × Nat)} {cursor finish : Nat} {regions : List Region}
    (h : place cursor items = some (regions, finish)) :
    regions = stack cursor items ∧ finish = cursor + total (items.map (·.2)) ∧ (cursor < limit → finish < limit) := by
  induction items generalizing cursor regions finish with
  | nil => cases h; exact ⟨rfl, rfl, id⟩
  | cons item items ih =>
    obtain ⟨kind, len⟩ := item
    simp only [place, Option.bind_eq_bind, Option.bind_eq_some_iff, Word.add?_eq_some] at h
    obtain ⟨_, ⟨hlt, rfl⟩, ⟨rest, next⟩, hrest, h⟩ := h
    cases h
    obtain ⟨rfl, rfl, hf⟩ := ih hrest
    exact ⟨rfl, by simp [Nat.add_assoc], fun _ => hf hlt⟩

end Layout

/-! ## The plan -/

namespace RegionKind

/-- The bytes of the region. -/
def room (size : Nat) (d : Dims) : RegionKind → Nat
  | .idxHeaders => 2 * (d.N + 1) * IdxHeader.width
  | .matHeaders => (d.N + 2 * (d.N + 1)) * MatHeader.width
  | .vecHeaders => (d.N + 4 * (d.N + 1)) * VecHeader.width
  | .rqz => roundUp (total ((List.range (d.N + 1)).map (RegionKind.rqz.stride size d)))
  | .b => roundUp (total ((List.range d.N).map (RegionKind.b.stride size d)))
  | .d => roundUp (total ((List.range (d.N + 1)).map (RegionKind.d.stride size d)))
  | .m => roundUp (total ((List.range (d.N + 1)).map (RegionKind.m.stride size d)))
  | .idxb => total ((List.range (d.N + 1)).map (RegionKind.idxb.stride size d))
  | .idxs => total ((List.range (d.N + 1)).map (RegionKind.idxs.stride size d))
  | .BAbt => total ((List.range d.N).map (RegionKind.BAbt.stride size d))
  | .RSQrq => total ((List.range (d.N + 1)).map (RegionKind.RSQrq.stride size d))
  | .DCt => total ((List.range (d.N + 1)).map (RegionKind.DCt.stride size d))
  | .Z => total ((List.range (d.N + 1)).map (RegionKind.Z.stride size d))

/-- The arrays of a kind fit its region. -/
theorem total_stride_le_room (size : Nat) (d : Dims) (kind : RegionKind) :
    total ((List.range (kind.count d.N)).map (kind.stride size d)) ≤ kind.room size d := by
  cases kind <;> first | exact Nat.zero_le _ | exact Nat.le_refl _ | exact Word.le_roundUp _

/-- The regions in front of the numbers. -/
def heads : List RegionKind := [.idxHeaders, .matHeaders, .vecHeaders, .idxb, .idxs]

def floats : List RegionKind := [.BAbt, .RSQrq, .DCt, .Z, .rqz, .b, .d, .m]

/-- The regions of `kinds`, each with its bytes. -/
def items (size : Nat) (d : Dims) (kinds : List RegionKind) : List (RegionKind × Nat) :=
  kinds.map fun kind => (kind, kind.room size d)

end RegionKind

open RegionKind (items heads floats)

namespace Layout

/-- Where the numbers start. -/
def numbersStart (size : Nat) (d : Dims) : Nat := roundUp (total ((items size d heads).map (·.2)))

/-- The planned regions, with no headers. -/
def frame (size : Nat) (d : Dims) : Layout :=
  let used := numbersStart size d + total ((items size d floats).map (·.2))
  ⟨stack 0 (items size d heads) ++ stack (numbersStart size d) (items size d floats), [], [], [], used,
    used + Word.cacheLine⟩

/-- The layout for dimensions `d`, in the natural numbers. -/
def planned (size : Nat) (d : Dims) : Layout :=
  { frame size d with
    idxHeaders := (frame size d).idxTable size d
    matHeaders := (frame size d).matTable size d
    vecHeaders := (frame size d).vecTable size d }

/-- The planned regions, spelled out. -/
theorem frame_region (size : Nat) (d : Dims) (kind : RegionKind) :
    ((frame size d).region kind).len = kind.room size d ∧
      ((frame size d).region kind).finish ≤ (frame size d).used := by
  have hr := Word.le_roundUp (total ((items size d heads).map (·.2)))
  cases kind <;> refine ⟨rfl, ?_⟩ <;>
    simp [frame, items, heads, floats, numbersStart, stack, region, Region.finish] at hr ⊢ <;> omega

/-! ## Counts -/

end Layout

namespace Dims

/-- Every count of a stage fits a word. -/
def FitsWords (d : Dims) : Prop :=
  ∀ i ≤ d.N, d.nuxAt i + 1 < limit ∧ d.nuxAt i + 2 * d.nsAt i < limit ∧ d.ncAt i < limit

end Dims

namespace Layout

variable {size : Nat} {d : Dims}

/-- What stage `i` needs room for. -/
def countsAt (d : Dims) (i : Nat) : Counts := ⟨d.nuxAt i, d.nuxAt i + 2 * d.nsAt i, d.ncAt i, d.ngAt i, d.nsAt i⟩

theorem checked_eq_ok {o : Option Nat} {n : Nat} : checked o = .ok n ↔ o = some n := Attempt.orReport_eq_ok

theorem counts_eq_ok (s : d.Spanned) {i : Nat} (hi : i ≤ d.N) {c : Counts} (h : counts d i = .ok c) :
    c = countsAt d i ∧ d.nuxAt i + 1 < limit ∧ d.nuxAt i + 2 * d.nsAt i < limit ∧ d.ncAt i < limit := by
  simp only [counts, Attempt.bind_eq_ok, Attempt.require_eq_ok, checked_eq_ok, s.nu_get hi, s.nx_get hi, s.ns_get hi,
    s.nb_get hi, s.ng_get hi, Option.bind_eq_bind, Option.bind_eq_some_iff, Word.add?_eq_some, Word.mul?_eq_some,
    Option.some.injEq, exists_eq_left', Attempt.pure_eq_ok] at h
  obtain ⟨_, ⟨-, rfl⟩, _, ⟨h1, rfl⟩, _, ⟨_, ⟨-, rfl⟩, h2, rfl⟩, _, ⟨_, ⟨-, rfl⟩, _, ⟨-, rfl⟩, h3, rfl⟩, rfl⟩ := h
  exact ⟨rfl, h1, h2, h3⟩

theorem stages_eq_ok (s : d.Spanned) {cs : List Counts} (h : overStages (counts d) 0 d.stages = .ok cs) :
    cs = (List.range (d.N + 1)).map (countsAt d) ∧ d.FitsWords := by
  have hc : d.stages = d.N + 1 := rfl
  refine ⟨overStages_map h fun i hi c h => (counts_eq_ok s (by omega) h).1, fun i hi => ?_⟩
  obtain ⟨c, -, hc⟩ := (overStages_eq_ok.mp h).2 i (by omega)
  rw [Nat.zero_add] at hc
  exact (counts_eq_ok s hi hc).2

/-! ## Sizes -/

theorem sizeMatrices?_range {n : Nat} {shape : Nat → Nat × Nat} {sized : List ((Nat × Nat) × Nat)}
    (h : sizeMatrices? size ((List.range n).map shape) = some sized) :
    sized = (List.range n).map fun i => (shape i, roundUp ((shape i).1 * (shape i).2 * size)) := by
  have hall := mapM_eq_map (g := fun m => (m, roundUp (m.1 * m.2 * size))) ?_ h
  · rw [hall, List.map_map]
    rfl
  · intro m x hx
    simp only [Option.bind_eq_bind, Option.bind_eq_some_iff, Word.matrixBytes?_eq_some] at hx
    rcases hx with ⟨_, ⟨-, -, rfl⟩, hx⟩
    cases hx
    rfl

theorem sizeWeights?_range {n : Nat} {c : Nat → Counts} {sized : List (Nat × Nat)}
    (h : sizeWeights? size ((List.range n).map c) = some sized) :
    sized = (List.range n).map fun i => (2 * (c i).ns, roundUp (2 * (c i).ns * size)) := by
  have hall := mapM_eq_map (g := fun c => (2 * c.ns, roundUp (2 * c.ns * size))) ?_ h
  · rw [hall, List.map_map]
    rfl
  · intro c x hx
    simp only [Option.bind_eq_bind, Option.bind_eq_some_iff, Word.vectorBytes?_eq_some, Word.mul?_eq_some] at hx
    rcases hx with ⟨_, ⟨hlt, rfl⟩, _, ⟨-, -, rfl⟩, hx⟩
    cases hx
    rw [wrap_of_lt hlt]

theorem zipWith_range {α β γ : Type} (f : α → β → γ) (g : Nat → α) (h : Nat → β) (n : Nat) :
    List.zipWith f ((List.range (n + 1)).map g) ((List.range n).map h) = (List.range n).map fun i => f (g i) (h i) := by
  apply List.ext_getElem?
  intro i
  by_cases hi : i < n
  · rw [List.getElem?_zipWith, List.getElem?_map, List.getElem?_map, List.getElem?_map,
      List.getElem?_range (by omega), List.getElem?_range hi]
    rfl
  · rw [List.getElem?_eq_none (by simp; omega), List.getElem?_eq_none (by simp; omega)]

/-! ## The plan, step by step -/

/-- The lengths of the arrays of a kind add up to its region, which lies in the frame. -/
theorem frame_fits (size : Nat) (d : Dims) (kind : RegionKind) :
    (frame size d).offsetOf size d kind (kind.count d.N) ≤ (frame size d).used := by
  obtain ⟨hlen, hfin⟩ := frame_region size d kind
  have := kind.total_stride_le_room size d
  unfold Region.finish at hfin
  unfold offsetOf
  omega

theorem total_range_mul (f : Nat → Nat) (c n : Nat) :
    total ((List.range n).map fun i => f i * c) = total ((List.range n).map f) * c := by
  rw [← total_map_mul, List.map_map]
  rfl

/-- The regions in front of the numbers are as long as planned. -/
theorem items_heads (s : d.Spanned) (hst : Word.allocates Word.width d.stages = true) :
    items size d heads =
      [(.idxHeaders, wrap (2 * d.stages) * IdxHeader.width), (.matHeaders, wrap (d.N + 2 * d.stages) * MatHeader.width),
       (.vecHeaders, wrap (d.N + 4 * d.stages) * VecHeader.width), (.idxb, total d.nb * Word.width),
       (.idxs, total d.ns * Word.width)] := by
  have hN : 8 * (d.N + 1) < 2 ^ 63 := by
    have h : (d.N + 1) * 8 ≤ 0x7fffffffffffffff := of_decide_eq_true hst
    omega
  have hw : ∀ n, n < 8 * (d.N + 1) → wrap n = n := fun n hn => wrap_of_lt (by unfold limit; omega)
  have hb : RegionKind.idxb.room size d = total d.nb * Word.width := by
    rw [s.nb_eq, ← total_range_mul]
    rfl
  have hs : RegionKind.idxs.room size d = total d.ns * Word.width := by
    rw [s.ns_eq, ← total_range_mul]
    rfl
  have hst : d.stages = d.N + 1 := rfl
  rw [hw _ (by omega), hw _ (by omega), hw _ (by omega), ← hb, ← hs]
  rfl

/-- The regions of the numbers are as long as planned. -/
theorem items_floats (size : Nat) (d : Dims) :
    items size d floats =
      [(.BAbt, total (((List.range d.N).map fun i => ((d.nuxAt i + 1, d.nxAt (i + 1)),
          roundUp ((d.nuxAt i + 1) * d.nxAt (i + 1) * size))).map (·.2))),
       (.RSQrq, total (((List.range (d.N + 1)).map fun i => ((d.nuxAt i + 1, d.nuxAt i),
          roundUp ((d.nuxAt i + 1) * d.nuxAt i * size))).map (·.2))),
       (.DCt, total (((List.range (d.N + 1)).map fun i => ((d.nuxAt i, d.ngAt i),
          roundUp (d.nuxAt i * d.ngAt i * size))).map (·.2))),
       (.Z, total (((List.range (d.N + 1)).map fun i => (2 * d.nsAt i, roundUp (2 * d.nsAt i * size))).map (·.2))),
       (.rqz, roundUp (total (((List.range (d.N + 1)).map (countsAt d)).map (·.nv)) * size)),
       (.b, roundUp (total ((List.range d.N).map fun i => d.nxAt (i + 1)) * size)),
       (.d, roundUp (total (((List.range (d.N + 1)).map (countsAt d)).map (·.nc)) * size)),
       (.m, roundUp (total (((List.range (d.N + 1)).map (countsAt d)).map (·.nc)) * size))] := by
  simp only [List.map_map, ← total_range_mul]
  rfl

/-- The arrays of the frame end within a word, when the frame does. -/
theorem frame_offsetOf_lt (hused : (frame size d).used < limit) (kind : RegionKind) :
    (frame size d).offsetOf size d kind (kind.count d.N) < limit :=
  Nat.lt_of_le_of_lt (frame_fits size d kind) hused

theorem idxTable_frame (s : d.Spanned) (hused : (frame size d).used < limit) :
    packIndices ((frame size d).region .idxb).offset d.nb ++ packIndices ((frame size d).region .idxs).offset d.ns =
      (frame size d).idxTable size d := by
  rw [s.nb_eq, s.ns_eq]
  exact congr (congrArg _ (packIndices_row (frame size d) .idxb (frame_offsetOf_lt hused .idxb)))
    (packIndices_row (frame size d) .idxs (frame_offsetOf_lt hused .idxs))

theorem matTable_frame (hused : (frame size d).used < limit) :
    stackMatrices ((frame size d).region .BAbt).offset ((List.range d.N).map fun i => ((d.nuxAt i + 1, d.nxAt (i + 1)),
        roundUp ((d.nuxAt i + 1) * d.nxAt (i + 1) * size))) ++
      stackMatrices ((frame size d).region .RSQrq).offset ((List.range (d.N + 1)).map fun i =>
        ((d.nuxAt i + 1, d.nuxAt i), roundUp ((d.nuxAt i + 1) * d.nuxAt i * size))) ++
      stackMatrices ((frame size d).region .DCt).offset ((List.range (d.N + 1)).map fun i =>
        ((d.nuxAt i, d.ngAt i), roundUp (d.nuxAt i * d.ngAt i * size))) =
      (frame size d).matTable size d := by
  have row := fun block : MatBlock => stackMatrices_row (frame size d) block (frame_offsetOf_lt hused block.region)
  exact congr (congrArg _ (congr (congrArg _ (row .BAbt)) (row .RSQrq))) (row .DCt)

theorem vecTable_frame (hused : (frame size d).used < limit) :
    packVectors size ((frame size d).region .b).offset ((List.range d.N).map fun i => d.nxAt (i + 1)) ++
      packVectors size ((frame size d).region .rqz).offset (((List.range (d.N + 1)).map (countsAt d)).map (·.nv)) ++
      packVectors size ((frame size d).region .d).offset (((List.range (d.N + 1)).map (countsAt d)).map (·.nc)) ++
      packVectors size ((frame size d).region .m).offset (((List.range (d.N + 1)).map (countsAt d)).map (·.nc)) ++
      stackVectors ((frame size d).region .Z).offset ((List.range (d.N + 1)).map fun i =>
        (2 * d.nsAt i, roundUp (2 * d.nsAt i * size))) =
      (frame size d).vecTable size d := by
  rw [List.map_map, List.map_map]
  have row := fun (block : VecBlock) hp =>
    packVectors_row (frame size d) block hp (frame_offsetOf_lt hused block.region)
  exact congr (congrArg _ (congr (congrArg _ (congr (congrArg _ (congr (congrArg _ (row .b rfl)) (row .rqz rfl)))
    (row .d rfl))) (row .m rfl))) (stackVectors_row (frame size d) (frame_offsetOf_lt hused .Z))

/-- An arrangement that succeeds is the plan, and fits a word. -/
theorem arrange?_eq_some (s : d.Spanned) (hst : Word.allocates Word.width d.stages = true) {l : Layout}
    (h : arrange? d size ((List.range (d.N + 1)).map (countsAt d)) ((List.range d.N).map fun i => d.nxAt (i + 1)) = some l) :
    l = planned size d ∧ l.memsize < limit := by
  unfold arrange? at h
  rcases Option.bind_eq_some_iff.mp h with ⟨babt, hbabt, h⟩
  rcases Option.bind_eq_some_iff.mp h with ⟨rsqrq, hrsqrq, h⟩
  rcases Option.bind_eq_some_iff.mp h with ⟨dct, hdct, h⟩
  rcases Option.bind_eq_some_iff.mp h with ⟨weights, hweights, h⟩
  rw [zipWith_range] at hbabt
  rw [List.map_map] at hrsqrq hdct
  have hbabt := sizeMatrices?_range hbabt
  have hrsqrq := sizeMatrices?_range hrsqrq
  have hdct := sizeMatrices?_range hdct
  have hweights := sizeWeights?_range hweights
  subst hbabt hrsqrq hdct hweights
  -- the tables and the index arrays
  have h := (Word.bind_mul?_eq_some.mp h).2
  have h := (Word.bind_mul?_eq_some.mp h).2
  have h := (Word.bind_mul?_eq_some.mp h).2
  have h := (Word.bind_sum?_eq_some.mp h).2
  have h := (Word.bind_mul?_eq_some.mp h).2
  have h := (Word.bind_sum?_eq_some.mp h).2
  have h := (Word.bind_mul?_eq_some.mp h).2
  rcases Option.bind_eq_some_iff.mp h with ⟨⟨front, cursor⟩, hfront, h⟩
  rw [← @items_heads size d s hst] at hfront
  rcases place_eq_some hfront with ⟨rfl, rfl, -⟩
  rcases Option.bind_eq_some_iff.mp h with ⟨start, hstart, h⟩
  rcases Word.bind_add?_eq_some.mp hstart with ⟨hup, hstart⟩
  -- the numbers
  have h := (Word.bind_sum?_eq_some.mp h).2
  have h := (Word.bind_sum?_eq_some.mp h).2
  have h := (Word.bind_sum?_eq_some.mp h).2
  have h := (Word.bind_sum?_eq_some.mp h).2
  have h := (Word.bind_vectorBytes?_eq_some.mp (Word.bind_sum?_eq_some.mp h).2).2.2
  have h := (Word.bind_vectorBytes?_eq_some.mp (Word.bind_sum?_eq_some.mp h).2).2.2
  have h := (Word.bind_vectorBytes?_eq_some.mp (Word.bind_sum?_eq_some.mp h).2).2.2
  have h := (Word.bind_vectorBytes?_eq_some.mp (Word.bind_sum?_eq_some.mp h).2).2.2
  rcases Option.bind_eq_some_iff.mp h with ⟨⟨back, used⟩, hback, h⟩
  have hback : place start (items size d floats) = some (back, used) := by
    rw [items_floats]
    exact hback
  rcases place_eq_some hback with ⟨rfl, rfl, -⟩
  rw [Nat.zero_add] at hup hstart
  rw [Word.alignUp_cacheLine hup] at hstart
  cases hstart
  rcases Word.bind_add?_eq_some.mp h with ⟨hlt, h⟩
  have hused : (frame size d).used < limit := Nat.lt_of_le_of_lt (Nat.le_add_right _ _) hlt
  have hidx := idxTable_frame s hused
  have hmat := matTable_frame hused
  have hvec := vecTable_frame hused
  cases h
  refine ⟨?_, hlt⟩
  unfold planned
  rw [← hidx, ← hmat, ← hvec]
  rfl

theorem plan_eq_ok (s : d.Spanned) {l : Layout} (h : plan size d = .ok l) :
    l = planned size d ∧ l.memsize < limit ∧ d.FitsWords := by
  unfold plan at h
  split at h
  · rename_i hst
    simp only [Attempt.bind_eq_ok, Attempt.require_eq_ok, Attempt.orReport_eq_ok] at h
    obtain ⟨cs, hcs, ne, hne, h⟩ := h
    obtain ⟨rfl, hw⟩ := stages_eq_ok s hcs
    rw [overStages_some_map (g := fun i => d.nxAt (i + 1)) fun i hi => s.ne_get hi] at hne
    cases hne
    obtain ⟨hl, hm⟩ := arrange?_eq_some s hst h
    exact ⟨hl, hm, hw⟩
  · exact absurd h Attempt.breach_ne_ok

/-! ## Counts of every stage -/

/-- A stage that is counted has its entries. -/
theorem lengths_of_counts {i : Nat} {c : Counts} (h : counts d i = .ok c) :
    i < d.nx.length ∧ i < d.nu.length ∧ i < d.nb.length ∧ i < d.ng.length ∧ i < d.ns.length := by
  simp only [counts, Attempt.bind_eq_ok, Attempt.require_eq_ok] at h
  rcases h with ⟨_, hu, _, hx, _, -, _, -, _, hs, _, -, _, hb, _, hg, -⟩
  have lt : ∀ {xs : List Nat} {n : Nat}, xs[i]? = some n → i < xs.length := fun h => (List.getElem?_eq_some_iff.mp h).1
  exact ⟨lt hx, lt hu, lt hb, lt hg, lt hs⟩

theorem length_packIndices (offset : Nat) (lens : List Nat) : (packIndices offset lens).length = lens.length := by
  induction lens generalizing offset with
  | nil => rfl
  | cons len lens ih => rw [packIndices, List.length_cons, ih, List.length_cons]

/-- There is a header for each entry of the packed arrays, and a region for two at every stage. -/
theorem arrange?_idxHeaders (hst : Word.allocates Word.width d.stages = true) {cs : List Counts} {ne : List Nat}
    {l : Layout} (h : arrange? d size cs ne = some l) :
    l.idxHeaders.length = d.nb.length + d.ns.length ∧
      (l.region .idxHeaders).len = 2 * (d.N + 1) * IdxHeader.width := by
  unfold arrange? at h
  -- the matrices and weights, then the lengths of the regions in front
  iterate 4 rcases Option.bind_eq_some_iff.mp h with ⟨_, -, h⟩
  have h := (Word.bind_mul?_eq_some.mp h).2
  iterate 6 rcases Option.bind_eq_some_iff.mp h with ⟨_, -, h⟩
  rcases Option.bind_eq_some_iff.mp h with ⟨⟨front, cursor⟩, hfront, h⟩
  rcases place_eq_some hfront with ⟨rfl, -, -⟩
  -- the numbers
  iterate 15 rcases Option.bind_eq_some_iff.mp h with ⟨_, -, h⟩
  cases h
  constructor
  · rw [List.length_append, length_packIndices, length_packIndices]
  · have hN : (d.N + 1) * 8 ≤ 0x7fffffffffffffff := of_decide_eq_true hst
    have hwrap : wrap (2 * d.stages) = 2 * (d.N + 1) := wrap_of_lt (by unfold Dims.stages limit; omega)
    exact congrArg (· * IdxHeader.width) hwrap

/-- Dimensions that can be planned have the counts of every stage. When the index headers fill their region,
    the packed arrays list no more. -/
theorem spanned_of_plan {l : Layout} (h : plan size d = .ok l)
    (hfill : l.idxHeaders.length * IdxHeader.width = (l.region .idxHeaders).len) : d.Spanned := by
  unfold plan at h
  split at h
  · rename_i hst
    simp only [Attempt.bind_eq_ok, Attempt.require_eq_ok, Attempt.orReport_eq_ok] at h
    rcases h with ⟨cs, hcs, ne, -, h⟩
    rcases arrange?_idxHeaders hst h with ⟨hlen, hroom⟩
    rw [hroom, hlen] at hfill
    have hfill := Nat.eq_of_mul_eq_mul_right (show 0 < IdxHeader.width by decide) hfill
    rcases (overStages_eq_ok.mp hcs).2 d.N (Nat.lt_succ_self _) with ⟨c, -, hc⟩
    rw [Nat.zero_add] at hc
    rcases lengths_of_counts hc with ⟨hx, hu, hb, hg, hs⟩
    exact ⟨hx, hu, by omega, hg, by omega⟩
  · exact absurd h Attempt.breach_ne_ok

end Layout

end HorizonQp
