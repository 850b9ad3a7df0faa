/-
  HorizonQp.Proofs.Qp.Repack — a change of bounds keeps a problem in its block.

  A resize that is accepted fits: a stage has no more bounds than inputs and states, which
  the matrices of the stage already count against the block, so nothing that is computed
  wraps (`rows_lt`, `total_bounds_lt`). The rows of `d` and `m` then have room because
  there was room for as many bounds over all stages when the block was planned
  (`Layout.Sound.rows`). So the packed layout is sound for the new dimensions
  (`repack_sound`), and the tables of headers are written anew for it.

  By the same count a record that was built from its stages is consistent as soon as it has
  a layout (`Dims.consistent_of_ofStages`): the plan has counted its inputs and states.
-/

import HorizonQp.Proofs.Qp.Calls
import HorizonQp.Qp.Resize

namespace HorizonQp

open Word (limit wrap wrap_of_lt roundUp)

/-- Whether the arrays of the kind depend on the bounds. -/
def RegionKind.isBounds : RegionKind → Bool
  | .idxb | .d | .m => true
  | _ => false

namespace Dims

/-- The dimensions with other bounds. -/
def withBounds (d : Dims) (nbu nbx : List Nat) : Dims := { d with nb := List.zipWith (· + ·) nbu nbx, nbu, nbx }

section Fields

variable (d : Dims) (nbu nbx : List Nat)

@[simp] theorem withBounds_N : (d.withBounds nbu nbx).N = d.N := rfl

@[simp] theorem withBounds_stages : (d.withBounds nbu nbx).stages = d.stages := rfl

@[simp] theorem withBounds_nx : (d.withBounds nbu nbx).nx = d.nx := rfl

@[simp] theorem withBounds_nu : (d.withBounds nbu nbx).nu = d.nu := rfl

@[simp] theorem withBounds_ng : (d.withBounds nbu nbx).ng = d.ng := rfl

@[simp] theorem withBounds_ns : (d.withBounds nbu nbx).ns = d.ns := rfl

end Fields

/-- Every stage has its counts, and no more bounds than inputs and states. -/
structure Bounded (d : Dims) : Prop where
  spans : d.Spanned
  le : ∀ i ≤ d.N, d.nbAt i ≤ d.nuxAt i

theorem Consistent.bounded {d : Dims} (hd : d.Consistent) : d.Bounded := by
  refine ⟨hd.shaped.spanned, fun i hi => ?_⟩
  have hc := (consistent_iff.mp hd).2 i hi
  unfold nuxAt
  omega

/-- A split that suits the stages bounds them, whatever else their counts are. -/
theorem withBounds_bounded {d : Dims} (hd : d.Spanned) {nbu nbx : List Nat} (hu : d.stages = nbu.length)
    (hx : d.stages = nbx.length) (hs : splitFault? d.nx d.nu nbu nbx = none) : (d.withBounds nbu nbx).Bounded := by
  have hst : d.stages = d.N + 1 := rfl
  refine ⟨⟨hd.nx, hd.nu, ?_, hd.ng, hd.ns⟩, fun i hi => ?_⟩
  · show (List.zipWith (· + ·) nbu nbx).length = d.N + 1
    rw [List.length_zipWith]
    omega
  · have hi : i ≤ d.N := hi
    have hsplit := (splitFault?_eq_none hd.nx hd.nu (hu.symm.trans hst) (hx.symm.trans hst)).mp hs i (by omega)
    have hget : (d.withBounds nbu nbx).nbAt i = nbu.getD i 0 + nbx.getD i 0 := by
      simp only [nbAt, withBounds, List.getD_eq_getElem?_getD, List.getElem?_zipWith,
        List.getElem?_eq_getElem (show i < nbu.length by omega), List.getElem?_eq_getElem (show i < nbx.length by omega),
        Option.getD_some]
    rw [hget]
    exact Nat.add_le_add hsplit.1 hsplit.2

theorem withBounds_consistent {d : Dims} (hd : d.Consistent) {nbu nbx : List Nat} (hu : d.stages = nbu.length)
    (hx : d.stages = nbx.length) (hs : splitFault? d.nx d.nu nbu nbx = none) : (d.withBounds nbu nbx).Consistent := by
  obtain ⟨⟨h1, h2, -, -, -, h6, h7⟩, -, -⟩ := hd
  have hst : d.stages = d.N + 1 := rfl
  have hnb : (List.zipWith (· + ·) nbu nbx).length = d.N + 1 := by
    rw [List.length_zipWith]
    omega
  exact ⟨⟨h1, h2, hnb, hu.symm.trans hst, hx.symm.trans hst, h6, h7⟩, rfl, hs⟩

/-! ### The bounds as words -/

theorem length_joinBounds (nbu nbx : List Nat) : (joinBounds nbu nbx).length = min nbu.length nbx.length :=
  List.length_zipWith

/-- Where every sum is a word, the bounds are those on inputs and those on states. -/
theorem joinBounds_eq {nbu nbx : List Nat} (h : ∀ i < min nbu.length nbx.length, nbu.getD i 0 + nbx.getD i 0 < limit) :
    joinBounds nbu nbx = List.zipWith (· + ·) nbu nbx := by
  refine List.ext_getElem (by rw [length_joinBounds, List.length_zipWith]) fun i hi _ => ?_
  rw [length_joinBounds] at hi
  have hlt := h i hi
  rw [Nat.lt_min] at hi
  rw [List.getD_eq_getElem?_getD, List.getD_eq_getElem?_getD, List.getElem?_eq_getElem hi.1,
    List.getElem?_eq_getElem hi.2] at hlt
  simp only [joinBounds, List.getElem_zipWith]
  exact wrap_of_lt hlt

/-- Inputs and states are counted by a word, so the bounds of a split that suits them are too. -/
theorem joinBounds_of_split {d : Dims} (hd : d.Spanned) (hw : d.FitsWords) {nbu nbx : List Nat} (hu : d.stages = nbu.length)
    (hx : d.stages = nbx.length) (hs : splitFault? d.nx d.nu nbu nbx = none) :
    joinBounds nbu nbx = (d.withBounds nbu nbx).nb := by
  have hst : d.stages = d.N + 1 := rfl
  refine joinBounds_eq fun i hi => ?_
  rw [Nat.lt_min] at hi
  have hsplit := (splitFault?_eq_none hd.nx hd.nu (hu.symm.trans hst) (hx.symm.trans hst)).mp hs i (by omega)
  have hux := (hw i (by omega)).1
  unfold nuxAt nuAt nxAt at hux
  omega

theorem ofStages_eq_ok {d : Dims} {nx nu nbu nbx ng ns : List Nat} :
    ofStages nx nu nbu nbx ng ns = .ok d ↔ nx ≠ [] ∧
      (nx.length = nu.length ∧ nx.length = nbu.length ∧ nx.length = nbx.length ∧ nx.length = ng.length ∧
        nx.length = ns.length) ∧ splitFault? nx nu nbu nbx = none ∧
      d = ⟨nx.length - 1, nx, nu, joinBounds nbu nbx, nbu, nbx, ng, ns⟩ := by
  unfold ofStages
  cases nx with
  | nil => simp [throw, throwThe, MonadExceptOf.throw, bind, Except.bind]
  | cons n nx =>
    simp only [List.forIn_cons, List.forIn_nil, bind_assoc, pure_bind, List.isEmpty_cons, Bool.false_eq_true, if_false,
      bind_unit_eq_ok, checkLength_eq_ok, and_assoc, ne_eq, reduceCtorEq, not_false_eq_true, true_and, and_congr_right_iff]
    intro _ _ _ _ _
    cases splitFault? (n :: nx) nu nbu nbx with
    | none => simp [pure, Except.pure, eq_comm]
    | some stage => simp [throw, throwThe, MonadExceptOf.throw, bind, Except.bind]

/-- A record that was built is consistent as soon as it has a layout: the plan has counted the
    inputs and states of every stage, and there are no more bounds than these. -/
theorem consistent_of_ofStages {d : Dims} {nx nu nbu nbx ng ns : List Nat} (h : ofStages nx nu nbu nbx ng ns = .ok d)
    {size : Nat} {l : Layout} (hl : Layout.plan size d = .ok l) : d.Consistent := by
  obtain ⟨hne, ⟨hnu, hbu, hbx, hng, hns⟩, hs, hd⟩ := ofStages_eq_ok.mp h
  have hlen : nx.length = nx.length - 1 + 1 := (Nat.succ_pred (mt List.eq_nil_of_length_eq_zero hne)).symm
  have hnb : (joinBounds nbu nbx).length = nx.length - 1 + 1 := by
    rw [length_joinBounds, ← hbu, ← hbx, Nat.min_self]
    exact hlen
  have shaped : d.Shaped := by
    subst hd
    exact ⟨hlen, hnu ▸ hlen, hnb, hbu ▸ hlen, hbx ▸ hlen, hng ▸ hlen, hns ▸ hlen⟩
  obtain ⟨-, -, hw⟩ := Layout.plan_eq_ok shaped.spanned hl
  subst hd
  have hjoin := joinBounds_of_split shaped.spanned hw shaped.nbu.symm shaped.nbx.symm hs
  exact ⟨⟨shaped.nx, shaped.nu, shaped.nb, shaped.nbu, shaped.nbx, shaped.ng, shaped.ns⟩, hjoin, hs⟩

end Dims

/-! ## Nothing wraps -/

namespace Layout

/-- Eight bytes for each input and state are no more than the Hessian of the stage has. -/
theorem eight_nux_le (size : Nat) (hs : 0 < size) (d : Dims) (i : Nat) :
    d.nuxAt i * 8 ≤ RegionKind.RSQrq.stride size d i := by
  show d.nuxAt i * 8 ≤ roundUp ((d.nuxAt i + 1) * d.nuxAt i * size)
  have h1 := Word.le_roundUp ((d.nuxAt i + 1) * d.nuxAt i * size)
  have h2 : (d.nuxAt i + 1) * d.nuxAt i ≤ (d.nuxAt i + 1) * d.nuxAt i * size := Nat.le_mul_of_pos_right _ hs
  rcases Nat.eq_zero_or_pos (d.nuxAt i) with h0 | hpos
  · rw [h0]
    omega
  by_cases h8 : d.nuxAt i < 8
  · -- a matrix with an entry has a whole cache line
    have hone : 0 < (d.nuxAt i + 1) * d.nuxAt i := Nat.mul_pos (by omega) hpos
    unfold roundUp at *
    omega
  · have h3 : 8 * d.nuxAt i ≤ (d.nuxAt i + 1) * d.nuxAt i := Nat.mul_le_mul_right _ (by omega)
    omega

namespace Sound

variable {l : Layout} {size : Nat} {d : Dims} (h : l.Sound size d) (hs : 0 < size)
include h hs

theorem total_nux_lt : total ((List.range (d.N + 1)).map d.nuxAt) * 8 < limit := by
  have hle := total_map_le fun i (_ : i ∈ List.range (d.N + 1)) => eight_nux_le size hs d i
  have hfit := h.fits .RSQrq
  have hlt := h.region_lt .RSQrq
  rw [total_range_mul] at hle
  change (l.region .RSQrq).offset + total ((List.range (d.N + 1)).map (RegionKind.RSQrq.stride size d)) ≤ _ at hfit
  omega

/-- The regions of `d` and `m` both hold every row, so the rows leave a bit of a word free. -/
theorem total_rows_lt :
    2 * (total ((List.range (d.N + 1)).map d.ngAt) + total ((List.range (d.N + 1)).map d.nsAt)) < limit / 2 := by
  have hd := h.rows .d (Or.inl rfl)
  have hm := h.rows .m (Or.inr rfl)
  have hapart := h.region_apart (show RegionKind.d ≠ RegionKind.m by decide)
  have h1 := h.region_lt .d
  have h2 := h.region_lt .m
  have hle := Nat.le_mul_of_pos_right
    (2 * (l.boundCapacity + total ((List.range (d.N + 1)).map d.ngAt) + total ((List.range (d.N + 1)).map d.nsAt))) hs
  unfold Region.finish at *
  have hl : limit = 2 * (limit / 2) := by decide
  omega

end Sound

end Layout

section Bounds

variable {l : Layout} {size : Nat} {d d' : Dims} {nbu nbx : List Nat}

variable (h : l.Sound size d) (hs : 0 < size) (hd' : (d.withBounds nbu nbx).Bounded)
include h hs hd'

theorem total_bounds_lt : total ((List.range (d.N + 1)).map (d.withBounds nbu nbx).nbAt) * 8 < limit := by
  have h1 := h.total_nux_lt hs
  have h2 : total ((List.range (d.N + 1)).map (d.withBounds nbu nbx).nbAt) ≤ total ((List.range (d.N + 1)).map d.nuxAt) :=
    total_map_le fun i hi => hd'.le i (Nat.le_of_lt_succ (List.mem_range.mp hi))
  omega

/-- The rows of a stage with the new bounds fit a word. -/
theorem rows_lt {i : Nat} (hi : i ≤ d.N) : (d.withBounds nbu nbx).ncAt i < limit := by
  have h1 := total_bounds_lt h hs hd'
  have h2 := h.total_rows_lt hs
  have mem : i ∈ List.range (d.N + 1) := List.mem_range.mpr (by omega)
  have hb := le_total (List.mem_map_of_mem (f := (d.withBounds nbu nbx).nbAt) mem)
  have hg := le_total (List.mem_map_of_mem (f := d.ngAt) mem)
  have hn := le_total (List.mem_map_of_mem (f := d.nsAt) mem)
  have hl : limit = 2 * (limit / 2) := by decide
  show 2 * ((d.withBounds nbu nbx).nbAt i + d.ngAt i + d.nsAt i) < limit
  omega

theorem rowsWith?_eq {i : Nat} (hi : i ≤ d.N) :
    Qp.rowsWith? d (d.withBounds nbu nbx).nb i = some ((d.withBounds nbu nbx).ncAt i) := by
  have s := hd'.spans
  have hlt := rows_lt h hs hd' hi
  have hg : d.ng[i]? = some (d.ngAt i) := s.ng_get hi
  have hn : d.ns[i]? = some (d.nsAt i) := s.ns_get hi
  change 2 * ((d.withBounds nbu nbx).nbAt i + d.ngAt i + d.nsAt i) < limit at hlt
  rw [Qp.rowsWith?, s.nb_get hi, hg, hn]
  simp only [Option.bind_eq_bind, Option.bind_some, Option.pure_def, Option.some.injEq]
  rw [wrap_of_lt (show (d.withBounds nbu nbx).nbAt i + d.ngAt i + d.nsAt i < limit by omega), wrap_of_lt hlt]
  rfl

/-- The packed bounds fit their region when the capacity check says so. -/
theorem checkCapacity_idxb (hc : l.checkCapacity .idxb Word.width (d.withBounds nbu nbx).nb = .ok ()) :
    total ((List.range (d.N + 1)).map (d.withBounds nbu nbx).nbAt) ≤ l.boundCapacity := by
  have hlt := total_bounds_lt h hs hd'
  have s := hd'.spans
  have hnb : (d.withBounds nbu nbx).nb = (List.range (d.N + 1)).map (d.withBounds nbu nbx).nbAt := s.nb_eq
  unfold Layout.checkCapacity at hc
  simp only at hc
  split at hc
  · cases hc
  · rename_i hle
    have hw : Word.width = 8 := rfl
    rw [hnb, hw, wrap_of_lt (show total _ < limit by omega), wrap_of_lt hlt] at hle
    exact (Nat.le_div_iff_mul_le (by decide)).mpr (Nat.not_lt.mp hle)

end Bounds

/-! ## The packed layout is sound -/

/-- Replacing the middle one of three parts. -/
theorem replaceFrom_middle {α : Type} {before old after new : List α} {first : Nat} (hb : before.length = first)
    (hn : old.length = new.length) : replaceFrom (before ++ old ++ after) first new = before ++ new ++ after := by
  unfold replaceFrom
  rw [List.append_assoc before, List.take_left' hb, ← List.drop_drop, List.drop_left' hb, List.drop_left' hn]

namespace Layout

variable {l : Layout} {size : Nat} {d : Dims} {nbu nbx : List Nat}

/-- The layout with the arrays that depend on the bounds packed for the new ones. -/
def rebound (l : Layout) (size : Nat) (d : Dims) (nbu nbx : List Nat) : Layout :=
  l.repack size d.N (d.withBounds nbu nbx).nb ((List.range (d.N + 1)).map (d.withBounds nbu nbx).ncAt)

/-- What does not depend on the bounds stays where it is. -/
theorem stride_withBounds (size : Nat) (d : Dims) (nbu nbx : List Nat) {kind : RegionKind}
    (hk : kind.isBounds = false) (i : Nat) :
    kind.stride size (d.withBounds nbu nbx) i = kind.stride size d i := by
  cases kind <;> first | rfl | cases hk

theorem offsetOf_rebound (size : Nat) (d : Dims) (nbu nbx : List Nat) {kind : RegionKind}
    (hk : kind.isBounds = false) (i : Nat) :
    (l.rebound size d nbu nbx).offsetOf size (d.withBounds nbu nbx) kind i = l.offsetOf size d kind i := by
  unfold offsetOf
  rw [List.map_congr_left fun j _ => stride_withBounds size d nbu nbx hk j]
  rfl

section Fits

variable (h : l.Sound size d) (hs : 0 < size) (hd' : (d.withBounds nbu nbx).Bounded)
  (hcap : total ((List.range (d.N + 1)).map (d.withBounds nbu nbx).nbAt) ≤ l.boundCapacity)
include h hcap

theorem rebound_fits (kind : RegionKind) :
    (l.rebound size d nbu nbx).offsetOf size (d.withBounds nbu nbx) kind (kind.count d.N) ≤ (l.region kind).finish := by
  have hrows : ∀ kind, kind = .d ∨ kind = .m → (l.region kind).offset +
      total ((List.range (d.N + 1)).map fun i => (d.withBounds nbu nbx).ncAt i * size) ≤ (l.region kind).finish := by
    intro kind hk
    have hr := h.rows kind hk
    have ht : total ((List.range (d.N + 1)).map (d.withBounds nbu nbx).ncAt) =
        2 * (total ((List.range (d.N + 1)).map (d.withBounds nbu nbx).nbAt) +
          total ((List.range (d.N + 1)).map d.ngAt) + total ((List.range (d.N + 1)).map d.nsAt)) :=
      total_rows (d.withBounds nbu nbx).nbAt d.ngAt d.nsAt (d.N + 1)
    rw [total_range_mul, ht]
    have hle := Nat.mul_le_mul_right size (Nat.mul_le_mul_left 2 (Nat.add_le_add_right (Nat.add_le_add_right hcap
      (total ((List.range (d.N + 1)).map d.ngAt))) (total ((List.range (d.N + 1)).map d.nsAt))))
    unfold Region.finish
    omega
  by_cases hk : kind.isBounds = false
  · rw [offsetOf_rebound size d nbu nbx hk]
    exact h.fits kind
  · have hk : kind = .idxb ∨ kind = .d ∨ kind = .m := by
      revert hk
      cases kind <;> decide
    rcases hk with rfl | rfl | rfl
    · show (l.region .idxb).offset + total ((List.range (d.N + 1)).map fun i => (d.withBounds nbu nbx).nbAt i * 8) ≤ _
      rw [total_range_mul]
      have hdiv : l.boundCapacity * 8 ≤ (l.region .idxb).len := Nat.div_mul_le_self _ _
      unfold Region.finish
      omega
    · exact hrows .d (Or.inl rfl)
    · exact hrows .m (Or.inr rfl)

theorem rebound_offset_lt (kind : RegionKind) :
    (l.rebound size d nbu nbx).offsetOf size (d.withBounds nbu nbx) kind (kind.count d.N) < limit :=
  Nat.lt_of_le_of_lt (rebound_fits h hcap kind) (h.region_lt kind)

include hd' in
theorem rebound_idxHeaders :
    (l.rebound size d nbu nbx).idxHeaders = (l.rebound size d nbu nbx).idxTable size (d.withBounds nbu nbx) := by
  have hnb : (d.withBounds nbu nbx).nb = (List.range (d.N + 1)).map (d.withBounds nbu nbx).nbAt := hd'.spans.nb_eq
  have hrow := packIndices_row (d := d.withBounds nbu nbx) (l.rebound size d nbu nbx) .idxb (rebound_offset_lt h hcap .idxb)
  have hidxs : rowOf (l.idxHeader size d .idxs) (d.N + 1) =
      rowOf ((l.rebound size d nbu nbx).idxHeader size (d.withBounds nbu nbx) .idxs) (d.N + 1) :=
    rowOf_congr fun i _ => by
      rw [idxHeader, idxHeader, offsetOf_rebound size d nbu nbx rfl]
      rfl
  show replaceFrom l.idxHeaders 0 (packIndices (l.region .idxb).offset (d.withBounds nbu nbx).nb) = _
  rw [h.idxHeaders, hnb]
  refine (congrArg (replaceFrom (l.idxTable size d) 0) hrow).trans ?_
  unfold idxTable
  rw [hidxs]
  exact @replaceFrom_middle _ [] _ _ _ 0 rfl ((length_rowOf _ _).trans (length_rowOf _ _).symm)

theorem rebound_vecHeaders :
    (l.rebound size d nbu nbx).vecHeaders = (l.rebound size d nbu nbx).vecTable size (d.withBounds nbu nbx) := by
  have hd := packVectors_row (d := d.withBounds nbu nbx) (l.rebound size d nbu nbx) .d rfl (rebound_offset_lt h hcap .d)
  have hm := packVectors_row (d := d.withBounds nbu nbx) (l.rebound size d nbu nbx) .m rfl (rebound_offset_lt h hcap .m)
  have keep : ∀ (block : VecBlock) n, block.region.isBounds = false → rowOf (l.vecHeader size d block) n =
      rowOf ((l.rebound size d nbu nbx).vecHeader size (d.withBounds nbu nbx) block) n := by
    intro block n hk
    refine rowOf_congr fun i _ => ?_
    rw [vecHeader, vecHeader, offsetOf_rebound size d nbu nbx hk, stride_withBounds size d nbu nbx hk]
    cases block <;> first | rfl | cases hk
  have hlen : ∀ (block : VecBlock) n, (rowOf (l.vecHeader size d block) n).length = n := fun _ _ => length_rowOf _ _
  show replaceFrom (replaceFrom l.vecHeaders (2 * d.N + 1) (packVectors size (l.region .d).offset _)) (3 * d.N + 2)
    (packVectors size (l.region .m).offset _) = _
  rw [h.vecHeaders]
  refine (congr (congrArg (fun t => replaceFrom (replaceFrom (l.vecTable size d) (2 * d.N + 1) t) (3 * d.N + 2)) hd)
    hm).trans ?_
  unfold vecTable
  rw [List.append_assoc (_ ++ rowOf (l.vecHeader size d .d) _), replaceFrom_middle, ← List.append_assoc, replaceFrom_middle,
    keep .b _ rfl, keep .rqz _ rfl, keep .Z _ rfl]
  · rfl
  · rw [List.length_append, List.length_append, hlen, hlen, length_rowOf]
    show d.N + (d.N + 1) + (d.N + 1) = _
    omega
  · rw [hlen, length_rowOf]
    rfl
  · rw [List.length_append, hlen, hlen]
    omega
  · rw [hlen, length_rowOf]
    rfl

include hs hd' in
/-- A layout that is packed for bounds there is room for is sound for them. -/
theorem repack_sound : (l.rebound size d nbu nbx).Sound size (d.withBounds nbu nbx) where
  kinds := h.kinds
  ordered := h.ordered
  inside := h.inside
  aligned := h.aligned
  span := h.span
  memsize := h.memsize
  memsize_lt := h.memsize_lt
  idxHeaders := rebound_idxHeaders h hd' hcap
  matHeaders := h.matHeaders
  vecHeaders := rebound_vecHeaders h hcap
  idxRoom := h.idxRoom
  matRoom := h.matRoom
  vecRoom := h.vecRoom
  fits := rebound_fits h hcap
  rows := h.rows
  words i hi := ⟨(h.words i hi).1, (h.words i hi).2.1, rows_lt h hs hd' hi⟩

end Fits

end Layout

/-! ## Resizing -/

namespace Qp

variable {α : Type} [Stored α]

theorem Laid.resize_eq_ok {q q' : Qp α} (h : q.Laid) {nbu nbx : List Nat} :
    q.resize nbu nbx = .ok q' ↔
      q.dims.stages = nbu.length ∧ q.dims.stages = nbx.length ∧ splitFault? q.dims.nx q.dims.nu nbu nbx = none ∧
        q.dims.nx.length ≤ nbu.length ∧ q'.dims = q.dims.withBounds nbu nbx ∧
        ∃ nc, overStages (rowsWith? q.dims q'.dims.nb) 0 q.dims.stages = some nc ∧
          (∃ us, overStages (q.checkSoftRows q'.dims.nb) 0 q.dims.stages = .ok us) ∧
          q.layout.checkCapacity .idxb Word.width q'.dims.nb = .ok () ∧
          q.layout.checkCapacity .d (Stored.width α) nc = .ok () ∧
          q'.layout = q.layout.repack (Stored.width α) q.dims.N q'.dims.nb nc ∧
          q'.layout.writeHeaders? q.block = some q'.block := by
  simp only [Qp.resize, Attempt.bind_eq_ok, Attempt.check_eq_ok, checkLength_eq_ok]
  refine and_congr_right fun hu => and_congr_right fun hx => ?_
  have hnb := Dims.joinBounds_of_split h.spans h.layout.words hu hx
  cases hs : splitFault? q.dims.nx q.dims.nu nbu nbx with
  | some stage => simp [Attempt.fail, Bind.bind, Except.bind]
  | none =>
    by_cases hlen : nbu.length < q.dims.nx.length
    · simp [hlen, Nat.not_le.mpr hlen, Attempt.breach, Bind.bind, Except.bind]
    · simp only [if_neg hlen, hnb hs, Attempt.bind_eq_ok, Attempt.check_eq_ok, Attempt.require_eq_ok, Attempt.pure_eq_ok]
      constructor
      · intro h
        rcases h with ⟨nc, hnc, us, hus, hc, hc', b, hb, rfl⟩
        exact ⟨trivial, Nat.not_lt.mp hlen, rfl, nc, hnc, ⟨us, hus⟩, hc, hc', rfl, hb⟩
      · intro h
        rcases h with ⟨-, -, hd, nc, hnc, ⟨us, hus⟩, hc, hc', hl, hb⟩
        rw [hd] at hnc hus hc hl
        rw [hl] at hb
        exact ⟨nc, hnc, us, hus, hc, hc', q'.block, hb, by cases q'; cases hd; cases hl; rfl⟩

/-- A resize that is accepted packs the layout for bounds there is room for, and writes its tables. -/
theorem Laid.resize_parts [FixedWidth α] {q q' : Qp α} (h : q.Laid) {nbu nbx : List Nat}
    (hr : q.resize nbu nbx = .ok q') :
    (q.dims.withBounds nbu nbx).Bounded ∧
      total ((List.range (q.dims.N + 1)).map (q.dims.withBounds nbu nbx).nbAt) ≤ q.layout.boundCapacity ∧
      q'.dims = q.dims.withBounds nbu nbx ∧ q'.layout = q.layout.rebound (Stored.width α) q.dims nbu nbx ∧
      q'.layout.writeHeaders? q.block = some q'.block := by
  obtain ⟨hu, hx, hs, -, hd, nc, hnc, -, hcap, -, hl, hw⟩ := h.resize_eq_ok.mp hr
  have hd' := Dims.withBounds_bounded h.spans hu hx hs
  have hpos := FixedWidth.width_pos α
  rw [hd] at hnc hcap hl
  have hrows : overStages (rowsWith? q.dims (q.dims.withBounds nbu nbx).nb) 0 q.dims.stages = some _ :=
    overStages_some_map fun i hi => rowsWith?_eq h.layout hpos hd' (Nat.le_of_lt_succ hi)
  rw [hrows] at hnc
  cases hnc
  exact ⟨hd', checkCapacity_idxb h.layout hpos hd' hcap, hd, hl, hw⟩

/-- A resize that is accepted keeps the problem in its block. -/
theorem Laid.resize [FixedWidth α] {q q' : Qp α} (h : q.Laid) {nbu nbx : List Nat} (hr : q.resize nbu nbx = .ok q') :
    q'.Laid := by
  obtain ⟨hd', hcap, hd, hl, hw⟩ := h.resize_parts hr
  have hsound := Layout.repack_sound h.layout (FixedWidth.width_pos α) hd' hcap
  refine ⟨hd ▸ hd'.spans, by rw [hd, hl]; exact hsound, ?_⟩
  rw [hl] at hw ⊢
  exact (Layout.writeHeaders?_held hsound h.held.room hw).1

theorem Bound.resize [FixedWidth α] {q q' : Qp α} (h : q.Bound) {nbu nbx : List Nat} (hr : q.resize nbu nbx = .ok q') :
    q'.Bound := by
  rcases h.toLaid.resize_eq_ok.mp hr with ⟨hu, hx, hs, -, hd, -⟩
  exact ⟨h.toLaid.resize hr, hd ▸ Dims.withBounds_consistent h.dims hu hx hs⟩

end Qp

end HorizonQp
