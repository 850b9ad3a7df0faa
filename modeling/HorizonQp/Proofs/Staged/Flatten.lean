/-
  HorizonQp.Proofs.Staged.Flatten — a multi-stage problem as one dense problem.

  Without slacks the stages are one dense problem in `[u_0; x_0; u_1; x_1; ..]`
  (`flatten`). The costs and the general constraints are block diagonal (`blocks`), an
  equation `x_{i+1} - B_i u_i - A_i x_i = b_i` reads two stages that follow each other
  (`dynamics`), and the index arrays are shifted past the stages before (`bounded`). A
  vector of inequality rows, stage by stage `[lb; lg; ub; ug]`, is rearranged to all lower
  bounds, all lower general constraints, all upper bounds, all upper general constraints
  (`pack`), which is a permutation of its entries (`pack_perm`).
-/

import HorizonQp.Proofs.Dense.Update
import HorizonQp.Proofs.Linear.Entries
import HorizonQp.Proofs.Staged.Parts

namespace HorizonQp

open Linear (Matrix)

/-- The sizes of a stage by itself, its slacks left out. -/
def Stage.dims {α : Type} (s : Stage α) : DenseDims := ⟨s.nux, s.ne, s.nb, s.ng⟩

namespace Flat

variable {α : Type}

/-! ## The parts of the dense problem -/

/-- Entry `(i, j)` of the matrix with a block of `rows s` by `cols s` for each stage on its
    diagonal. -/
def blocks [Zero α] (rows cols : Stage α → Nat) (entry : Stage α → Nat → Nat → α) : List (Stage α) → Nat → Nat → α
  | [], _, _ => 0
  | s :: stages, i, j =>
    if i < rows s then if j < cols s then entry s i j else 0
    else if j < cols s then 0 else blocks rows cols entry stages (i - rows s) (j - cols s)

/-- Entry `(r, j)` of the equations of the steps. -/
def dynamics [Zero α] [One α] [Neg α] : List (Stage α) → Nat → Nat → α
  | [], _, _ => 0
  | s :: stages, r, j =>
    match s.step with
    | none => if j < s.nux then 0 else dynamics stages r (j - s.nux)
    | some step =>
      if r < step.b.length then
        if j < s.nux then -step.BAbt.entry j r else if j = s.nux + (step.nu + r) then 1 else 0
      else if j < s.nux then 0 else dynamics stages (r - step.b.length) (j - s.nux)

/-- The right hand sides of the steps. -/
def rightSides : List (Stage α) → List α
  | [] => []
  | s :: stages => (s.step.elim [] Step.b) ++ rightSides stages

/-- The bounded variables. -/
def bounded : List (Stage α) → List Nat
  | [] => []
  | s :: stages => s.idxb ++ (bounded stages).map (s.nux + ·)

/-- The rows of a side, of all stages. -/
def side (which : Side) : List (Stage α) → List α → List α
  | [], _ => []
  | s :: stages, x => which.part s.dims (x.take s.nc) ++ side which stages (x.drop s.nc)

/-- Inequality rows stage by stage, rearranged side by side. -/
def pack (stages : List (Stage α)) (x : List α) : List α :=
  side .lb stages x ++ side .lg stages x ++ side .ub stages x ++ side .ug stages x

def dims (stages : List (Stage α)) : DenseDims where
  nv := total (stages.map Stage.nux)
  ne := total (stages.map Stage.ne)
  nb := total (stages.map Stage.nb)
  ng := total (stages.map Stage.ng)

end Flat

/-- The stages as one dense problem. -/
def flatten {α : Type} [Zero α] [One α] [Neg α] (stages : List (Stage α)) : DenseQp α where
  dims := Flat.dims stages
  H := Matrix.ofFn (Flat.dims stages).nv (Flat.dims stages).nv
    (Flat.blocks Stage.nux Stage.nux (fun s => s.RSQrq.entry) stages)
  g := stages.flatMap Stage.rqz
  A := Matrix.ofFn (Flat.dims stages).ne (Flat.dims stages).nv (Flat.dynamics stages)
  b := Flat.rightSides stages
  Ct := Matrix.ofFn (Flat.dims stages).nv (Flat.dims stages).ng
    (Flat.blocks Stage.nux Stage.ng (fun s => s.DCt.entry) stages)
  idxb := Flat.bounded stages
  d := Flat.pack stages (stages.flatMap Stage.d)
  m := Flat.pack stages (stages.flatMap Stage.m)

/-- The iterate of the dense problem. -/
def flattenIterate {α : Type} (stages : List (Stage α)) (it : Iterate α) : DenseIterate α where
  v := it.ux
  pi := it.pi
  lam := Flat.pack stages it.lam
  t := Flat.pack stages it.t

namespace Flat

variable {α : Type}

/-! ## Sides -/

/-- No slacks at any stage. -/
def Rigid (stages : List (Stage α)) : Prop := ∀ s ∈ stages, s.ns = 0

namespace Rigid

variable {s : Stage α} {stages : List (Stage α)}

theorem head (h : Rigid (s :: stages)) : s.ns = 0 := h s List.mem_cons_self

theorem tail (h : Rigid (s :: stages)) : Rigid stages := fun s' hs' => h s' (List.mem_cons_of_mem _ hs')

theorem nv_eq (h : s.ns = 0) : s.nv = s.nux := by
  rw [Stage.nv, h, Nat.mul_zero, Nat.add_zero]

theorem nc_eq (h : s.ns = 0) : s.nc = 2 * (s.nb + s.ng) := by
  rw [Stage.nc, h, Nat.add_zero, Stage.rows]

theorem total_nv (h : Rigid stages) : total (stages.map Stage.nv) = total (stages.map Stage.nux) :=
  congrArg total (List.map_congr_left fun s hs => nv_eq (h s hs))

end Rigid

/-- The four sides, one behind the other, are all rows. -/
theorem sides_append {d : DenseDims} {x : List α} (hx : x.length = 2 * (d.nb + d.ng)) :
    Side.lb.part d x ++ Side.lg.part d x ++ Side.ub.part d x ++ Side.ug.part d x = x := by
  have hug : (x.drop (2 * d.nb + d.ng)).take d.ng = x.drop (2 * d.nb + d.ng) := by
    refine List.take_of_length_le ?_
    rw [List.length_drop, hx]
    omega
  have hub : (x.drop (d.nb + d.ng)).take d.nb ++ x.drop (2 * d.nb + d.ng) = x.drop (d.nb + d.ng) := by
    have := List.take_append_drop d.nb (x.drop (d.nb + d.ng))
    rwa [List.drop_drop, show d.nb + d.ng + d.nb = 2 * d.nb + d.ng by omega] at this
  have hlow : (x.drop d.nb).take d.ng ++ x.drop (d.nb + d.ng) = x.drop d.nb := by
    have := List.take_append_drop d.ng (x.drop d.nb)
    rwa [List.drop_drop] at this
  simp only [Side.part, Side.offset, Side.length, List.append_assoc, List.drop_zero]
  rw [hug, hub, hlow, List.take_append_drop]

/-- Moving the sides of one stage in front of those of the others. -/
theorem perm_sides (a a' b b' c c' d d' : List α) :
    (a ++ a' ++ (b ++ b') ++ (c ++ c') ++ (d ++ d')).Perm (a ++ b ++ c ++ d ++ (a' ++ b' ++ c' ++ d')) := by
  classical
  refine List.perm_iff_count.mpr fun x => ?_
  simp only [List.count_append]
  omega

theorem pack_perm {stages : List (Stage α)} (hs : Rigid stages) {x : List α}
    (hx : x.length = total (stages.map Stage.nc)) : (pack stages x).Perm x := by
  induction stages generalizing x with
  | nil =>
    rw [List.eq_nil_of_length_eq_zero hx]
    exact List.Perm.refl _
  | cons s stages ih =>
    rw [List.map_cons, total_cons] at hx
    have hfront : (x.take s.nc).length = s.nc := List.length_take_of_le (by omega)
    have hback := ih hs.tail (x := x.drop s.nc) (by rw [List.length_drop]; omega)
    refine (perm_sides ..).trans ?_
    rw [sides_append (hfront.trans (Rigid.nc_eq hs.head))]
    have happ := hback.append_left (x.take s.nc)
    rwa [List.take_append_drop] at happ

/-! ### Lengths -/

theorem length_stage_side {s : Stage α} {x : List α} (hx : s.nc ≤ x.length) (which : Side) :
    (which.part s.dims (x.take s.nc)).length = which.length s.dims := by
  have hnc : s.nc = 2 * (s.nb + s.ng + s.ns) := rfl
  cases which <;> simp only [Side.part, Side.offset, Side.length, Stage.dims, List.length_take, List.length_drop] <;> omega

theorem length_cons (which : Side) (s : Stage α) (stages : List (Stage α)) :
    which.length (dims (s :: stages)) = which.length s.dims + which.length (dims stages) := by
  cases which <;> rfl

theorem length_side {stages : List (Stage α)} {x : List α} (hx : x.length = total (stages.map Stage.nc)) (which : Side) :
    (side which stages x).length = which.length (dims stages) := by
  induction stages generalizing x with
  | nil => cases which <;> rfl
  | cons s stages ih =>
    rw [List.map_cons, total_cons] at hx
    have hfront := length_stage_side (s := s) (x := x) (by omega) which
    have hback := ih (x := x.drop s.nc) (by rw [List.length_drop]; omega)
    rw [side, List.length_append, hfront, hback, length_cons]

theorem length_pack {stages : List (Stage α)} {x : List α} (hx : x.length = total (stages.map Stage.nc)) :
    (pack stages x).length = 2 * ((dims stages).nb + (dims stages).ng) := by
  simp only [pack, List.length_append, length_side hx, Side.length]
  omega

theorem rows_dims {stages : List (Stage α)} (hs : Rigid stages) :
    2 * ((dims stages).nb + (dims stages).ng) = total (stages.map Stage.nc) := by
  induction stages with
  | nil => rfl
  | cons s stages ih =>
    have ih := ih hs.tail
    have h₀ := hs.head
    simp only [dims, List.map_cons, total_cons, Stage.nc, Stage.rows] at ih ⊢
    omega

/-! ## Sizes -/

theorem length_stacked {f : Stage α → List α} {n : Stage α → Nat} {stages : List (Stage α)}
    (h : ∀ s ∈ stages, (f s).length = n s) : (stages.flatMap f).length = total (stages.map n) := by
  induction stages with
  | nil => rfl
  | cons s stages ih =>
    rw [List.flatMap_cons, List.length_append, h s List.mem_cons_self, ih fun s' hs' => h s' (List.mem_cons_of_mem _ hs'),
      List.map_cons, total_cons]

theorem length_rightSides (stages : List (Stage α)) : (rightSides stages).length = (dims stages).ne := by
  induction stages with
  | nil => rfl
  | cons s stages ih =>
    rw [rightSides, List.length_append, ih]
    show _ + total _ = total _
    rw [List.map_cons, total_cons, Stage.ne]
    cases s.step <;> rfl

theorem length_bounded {stages : List (Stage α)} (h : ∀ s ∈ stages, s.idxb.length = s.nb) :
    (bounded stages).length = (dims stages).nb := by
  induction stages with
  | nil => rfl
  | cons s stages ih =>
    rw [bounded, List.length_append, List.length_map, h s List.mem_cons_self,
      ih fun s' hs' => h s' (List.mem_cons_of_mem _ hs')]
    rfl

/-- The index arrays of the stages point at inputs and states. -/
def InRange (stages : List (Stage α)) : Prop := ∀ s ∈ stages, ∀ k ∈ s.idxb, k < s.nux

theorem bounded_lt {stages : List (Stage α)} (h : InRange stages) : ∀ i ∈ bounded stages, i < (dims stages).nv := by
  induction stages with
  | nil => exact nofun
  | cons s stages ih =>
    have hnv : (dims (s :: stages)).nv = s.nux + (dims stages).nv := rfl
    intro i hi
    rcases List.mem_append.mp hi with hi | hi
    · have := h s List.mem_cons_self i hi
      omega
    · rcases List.mem_map.mp hi with ⟨j, hj, rfl⟩
      have := ih (fun s' hs' => h s' (List.mem_cons_of_mem _ hs')) j hj
      omega

/-- The stages make up a dense problem whose rows a word counts, and the iterate covers them. -/
structure Ready (stages : List (Stage α)) (it : Iterate α) : Prop where
  counted : (dims stages).Counted
  linked : Linked stages
  rigid : Rigid stages
  inRange : InRange stages
  sized : Sized stages it

namespace Ready

variable {s : Stage α} {stages : List (Stage α)} {it : Iterate α}

theorem rest (h : Ready (s :: stages) it) : Ready stages (s.rest it) where
  counted := by
    have := h.counted
    simp only [DenseDims.Counted, dims, List.map_cons, total_cons] at this ⊢
    omega
  linked := h.linked.2.2
  rigid := h.rigid.tail
  inRange := fun s' hs' => h.inRange s' (List.mem_cons_of_mem _ hs')
  sized := h.sized.rest

theorem shaped (h : Ready (s :: stages) it) : s.Shaped := h.linked.1

theorem idxb (h : Ready (s :: stages) it) : ∀ k ∈ s.idxb, k < s.nux := h.inRange s List.mem_cons_self

theorem length_bounded (h : Ready stages it) : (bounded stages).length = (dims stages).nb :=
  Flat.length_bounded fun s hs => (shaped_of_linked h.linked s hs).idxb

theorem length_d (h : Ready stages it) : (stages.flatMap Stage.d).length = total (stages.map Stage.nc) :=
  length_stacked fun s hs => (shaped_of_linked h.linked s hs).d

theorem length_m (h : Ready stages it) : (stages.flatMap Stage.m).length = total (stages.map Stage.nc) :=
  length_stacked fun s hs => (shaped_of_linked h.linked s hs).m

theorem flatten_fits [Zero α] [One α] [Neg α] (h : Ready stages it) :
    (flatten stages).Fits (flattenIterate stages it) := by
  have hg : (stages.flatMap Stage.rqz).length = total (stages.map Stage.nv) :=
    length_stacked fun s hs => (shaped_of_linked h.linked s hs).rqz
  have hrows {x : List α} (hx : x.length = total (stages.map Stage.nc)) : (dims stages).nc = (pack stages x).length :=
    h.counted.nc_eq.trans (length_pack hx).symm
  have hcount (rows cols : Nat) (f : Nat → Nat → α) : Word.wrap (rows * cols) = (Matrix.ofFn rows cols f).count :=
    congrArg Word.wrap (Matrix.ofFn_wellShaped ..).symm
  exact {
    counted := h.counted
    g := (hg.trans h.rigid.total_nv).symm
    b := (length_rightSides stages).symm
    idxb := h.length_bounded.symm
    idxb_lt := bounded_lt h.inRange
    d := hrows h.length_d
    m := hrows h.length_m
    H_count := hcount ..
    A_count := hcount ..
    Ct_count := hcount ..
    H_rows := Nat.le_refl _
    H_cols := rfl
    H_filled := (Matrix.ofFn_wellShaped ..).filled
    A_rows := rfl
    A_cols := rfl
    A_filled := (Matrix.ofFn_wellShaped ..).filled
    Ct_rows := rfl
    Ct_cols := rfl
    Ct_filled := (Matrix.ofFn_wellShaped ..).filled
    v := (h.sized.ux.trans h.rigid.total_nv).symm
    pi := h.sized.pi.symm
    lam := hrows h.sized.lam
    t := hrows h.sized.t }

end Ready

end Flat

end HorizonQp
