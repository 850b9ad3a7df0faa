/-
  HorizonQp.Proofs.TwoRuns — what the residuals depend on.

  Two problems that agree in what their residuals refer to are updated, each over a
  workspace of its own, at one iterate. The problems, stage by stage the views of their
  blocks (`Qp.stages?_eq_some`), may differ in every entry that no residual refers to and in
  how they came about; the workspaces may be made for different dimensions and hold anything.
  No law of the arithmetic is used, so no entry is too odd to be left out: the residuals are
  the same to the bit, each as soon as the one vector agrees that it alone refers to
  (`updates_agree`).

  That holds of the updates as `HorizonQp.Residual` has them, which compute from nothing, and
  of updates over what the workspaces and their scratch vectors hold, as long as
  the arithmetic takes its zero for zero.
-/

import HorizonQp.Proofs.Dense.Alike
import HorizonQp.Proofs.Staged.Contents

namespace HorizonQp

/-- Residuals that agree under every condition are the same. -/
theorem Residuals.Agree.eq {α : Type} {eqs ineqs comps : Prop} {r r' : Residuals α} (h : Agree eqs ineqs comps r r')
    (he : eqs) (hi : ineqs) (hc : comps) : r' = r := by
  obtain ⟨stationarity, equations, inequalities, complementarity, mu⟩ := r
  obtain ⟨stationarity', equations', inequalities', complementarity', mu'⟩ := r'
  simp only [Residuals.mk.injEq]
  exact ⟨h.stationarity, h.equations he, h.inequalities hi, h.complementarity hc, h.mu⟩

/-- Residuals depend on what they refer to alone: `b`, `d` and `m` each on one of them, and
    nothing on other entries, on the way a problem came about or on what a workspace was
    made for and holds. -/
theorem updates_agree {α : Type} [Stored α] [FixedWidth α] [Scalar α] :
    (∀ {q q' : Qp α} {stages stages' : List (Stage α)} {w w' r : Workspace α} {it : Iterate α},
      q.Obtained → q'.Obtained → q.stages? = some stages → q'.stages? = some stages' →
      List.Forall₂ Stage.Alike stages stages' →
      w.update q it = .ok r → Workspace.checkDims w'.dims q'.dims = .ok () →
      ∃ r', w'.update q' it = .ok r' ∧
        Residuals.Agree (stages'.map Stage.rhs = stages.map Stage.rhs) (stages'.map Stage.d = stages.map Stage.d)
          (stages'.map Stage.m = stages.map Stage.m) r.residuals r'.residuals ∧
        (Scalar.isZero (0 : α) = true → w.Full → w'.Full → ∀ scratch scratch' : Scratch α,
          scratch.Takes (largest w.dims.nb) (largest w.dims.ng) →
          scratch'.Takes (largest w'.dims.nb) (largest w'.dims.ng) →
          w.updateOver scratch q it = .ok r ∧ w'.updateOver scratch' q' it = .ok r')) ∧
    ∀ {q q' : DenseQp α} {w w' r : DenseWorkspace α} {it : DenseIterate α}, q.Alike q' →
      w.update q it = .ok r → w'.dims = q'.dims →
      ∃ r', w'.update q' it = .ok r' ∧
        Residuals.Agree (q'.b = q.b) (q'.d = q.d) (q'.m = q.m) r.residuals r'.residuals ∧
        (Scalar.isZero (0 : α) = true → w.Holds → w'.Holds → ∀ scratch scratch' : Scratch α,
          scratch.Fills w.dims → scratch'.Fills w'.dims →
          w.updateOver scratch q it = .ok r ∧ w'.updateOver scratch' q' it = .ok r') := by
  constructor
  · intro q q' stages stages' w w' r it h h' hs hs' ha hu hw'
    have hl := h.laid
    have hl' := h'.laid
    cases hs.symm.trans hl.stages?_eq
    cases hs'.symm.trans hl'.stages?_eq
    obtain ⟨r', hu', hagree⟩ := Workspace.update_alike hl hl' ha hu hw'
    refine ⟨r', hu', hagree, ?_⟩
    intro hz hfull hfull' scratch scratch' ht ht'
    constructor
    · rw [Workspace.updateOver_eq hz hfull ht hl, hu]
    · rw [Workspace.updateOver_eq hz hfull' ht' hl', hu']
  · intro q q' w w' r it a hu hw'
    obtain ⟨r', hu', hagree⟩ := DenseWorkspace.update_alike a hu hw'
    refine ⟨r', hu', hagree, ?_⟩
    intro hz hheld hheld' scratch scratch' ht ht'
    exact ⟨DenseWorkspace.updateOver_eq hz hu hheld ht, DenseWorkspace.updateOver_eq hz hu' hheld' ht'⟩

/-! ### Ones, and values that are no numbers where nothing is read -/

namespace TwoRuns

/-- Nothing refers to the entry: it is above the diagonal of `RSQrq`, or in the last row of that or of `BAbt`. -/
def unread (d : Dims) (kind : RegionKind) (i k : Nat) : Bool :=
  match kind with
  | .RSQrq => let rows := (MatBlock.RSQrq.shape d i).1; k % rows < k / rows || k % rows + 1 == rows
  | .BAbt => let rows := (MatBlock.BAbt.shape d i).1; k % rows + 1 == rows
  | _ => false

/-- Every entry a one, but for those that nothing refers to. -/
def onesAround (x : Binary.Double) (d : Dims) : Contents Binary.Double d :=
  .ofEntries d (fun kind i k => if unread d kind i k then x else 1) (fun _ _ k => 2 * (k + 1) % 4)
    fun _ _ k => Nat.lt_trans (Nat.mod_lt _ (by decide)) (by decide)

/-- A bound on the input of the first stage and one on a state. -/
def mixedBounds : Dims := ⟨1, [2, 1], [1, 0], [2, 0], [1, 0], [1, 0], [1, 0], [2, 0]⟩

/-- The same stages, with both bounds counted as bounds on states. -/
def stateBounds : Dims := ⟨1, [2, 1], [1, 0], [2, 0], [0, 0], [2, 0], [1, 0], [2, 0]⟩

theorem alike_ones :
    List.Forall₂ Stage.Alike ((List.range 2).map (onesAround 1 mixedBounds).stageAt)
      ((List.range 2).map (onesAround FloatingPoint.nan stateBounds).stageAt) := by
  refine .cons ?_ (.cons ?_ .nil)
  · constructor
    case step => exact .some ⟨rfl, rfl, by decide +kernel⟩
    all_goals decide +kernel
  · constructor
    case step => exact .none
    all_goals decide +kernel

/-- Two variables with an equation, a bound and a general constraint. -/
def onesDense (x : Binary.Double) : DenseQp Binary.Double :=
  ⟨⟨2, 1, 1, 1⟩, ⟨2, 2, [1, 1, x, 1]⟩, [1, 1], ⟨1, 2, [1, 1]⟩, [1], ⟨2, 1, [1, 1]⟩, [1], [1, 1, 1, 1], [1, 1, 1, 1]⟩

theorem alike_onesDense : (onesDense 1).Alike (onesDense FloatingPoint.nan) := by constructor <;> decide +kernel

/-- The vector of `n` entries `x`, over and over. -/
def held (x : Binary.Double) (nv ne nc : Nat) : Residuals Binary.Double :=
  ⟨List.replicate nv x, List.replicate ne x, List.replicate nc x, List.replicate nc x, x⟩

/-- Other stages with the same totals. -/
def otherStages : Dims := ⟨1, [3, 1], [0, 0], [2, 0], [0, 0], [2, 0], [1, 0], [2, 0]⟩

def ones : Iterate Binary.Double :=
  ⟨List.replicate 8 1, List.replicate 1 1, List.replicate 10 1, List.replicate 10 1⟩

theorem updates_agree_nan :
    (∃ (q q' : Qp Binary.Double) (s last s' last' : Stage Binary.Double) (w w' r r' : Workspace Binary.Double)
        (it : Iterate Binary.Double) (scratch scratch' : Scratch Binary.Double),
      q.dims = mixedBounds ∧ q'.dims = stateBounds ∧ q.stages? = some [s, last] ∧ q'.stages? = some [s', last'] ∧
      s.RSQrq.entry 0 1 = 1 ∧ s'.RSQrq.entry 0 1 = FloatingPoint.nan ∧ s'.RSQrq.entry 3 0 = FloatingPoint.nan ∧
      w.dims = mixedBounds ∧ w'.dims = otherStages ∧
      w'.residuals = held FloatingPoint.nan 8 1 10 ∧ scratch'.bounds = [FloatingPoint.nan, FloatingPoint.nan] ∧
      w.updateOver scratch q it = .ok r ∧ w'.updateOver scratch' q' it = .ok r' ∧ r'.residuals = r.residuals) ∧
    ∃ (w w' r r' : DenseWorkspace Binary.Double) (it : DenseIterate Binary.Double)
        (scratch scratch' : Scratch Binary.Double),
      (onesDense FloatingPoint.nan).H.entry 0 1 = FloatingPoint.nan ∧ w'.residuals = held FloatingPoint.nan 2 1 4 ∧
      w.updateOver scratch (onesDense 1) it = .ok r ∧ w'.updateOver scratch' (onesDense FloatingPoint.nan) it = .ok r' ∧
      r'.residuals = r.residuals := by
  have exact_ones (x : Binary.Double) (d : Dims) (kind : RegionKind) (i : Nat) :
      ∀ y ∈ (onesAround x d).numbers kind i, Stored.decode (Stored.encode y) = y :=
    fun y _ => LawfulStored.decode_encode y
  have hzero : Scalar.isZero (0 : Binary.Double) = true := by decide
  obtain ⟨staged, dense⟩ := updates_agree (α := Binary.Double)
  constructor
  · have hd : mixedBounds.Consistent := by decide
    have hd' : stateBounds.Consistent := by decide
    obtain ⟨q, h, hq, hs⟩ := (onesAround 1 mixedBounds).exists_stages hd rfl (exact_ones _ _)
    obtain ⟨q', h', hq', hs'⟩ := (onesAround FloatingPoint.nan stateBounds).exists_stages hd' rfl (exact_ones _ _)
    have hstages := Option.some.inj (h.bound.stages?_eq.symm.trans hs)
    have hidx : ∀ s ∈ q.stages, (∀ k ∈ s.idxb, k < s.nux) ∧ ∀ k ∈ s.idxs, k < s.rows := by
      rw [hstages]
      decide +kernel
    have hsized : Sized q.stages ones := by
      rw [hstages]
      constructor <;> decide +kernel
    have hw : Workspace.checkDims mixedBounds q.dims = .ok () := by
      rw [hq]
      decide
    have hw' : Workspace.checkDims (Workspace.mk otherStages (held FloatingPoint.nan 8 1 10)).dims q'.dims = .ok () := by
      rw [hq']
      decide
    have hu := Workspace.update_eq h.bound.toLaid hw hidx ones (held 1 8 1 10)
    rw [(Workspace.iterate_check_eq_ok h.bound.toLaid).mpr hsized] at hu
    obtain ⟨r', -, hagree, hover⟩ := staged h.obtained h'.obtained hs hs' alike_ones hu hw'
    obtain ⟨hr, hr'⟩ := hover hzero ⟨rfl, rfl, rfl, rfl⟩ ⟨rfl, rfl, rfl, rfl⟩ ⟨[1, 1], [1]⟩
      ⟨[FloatingPoint.nan, FloatingPoint.nan], [FloatingPoint.nan]⟩ ⟨by decide, by decide⟩ ⟨by decide, by decide⟩
    exact ⟨q, q', _, _, _, _, _, _, _, r', ones, _, _, hq, hq', hs, hs', by decide +kernel, by decide +kernel,
      by decide +kernel, rfl, rfl, rfl, rfl, hr, hr', hagree.eq (by decide +kernel) (by decide +kernel) (by decide +kernel)⟩
  · have hfits : (onesDense 1).Fits ⟨[1, 1], [1], [1, 1, 1, 1], [1, 1, 1, 1]⟩ := by constructor <;> decide +kernel
    have hu : DenseWorkspace.update ⟨⟨2, 1, 1, 1⟩, held 1 2 1 4⟩ (onesDense 1) ⟨[1, 1], [1], [1, 1, 1, 1], [1, 1, 1, 1]⟩ =
        .ok _ := DenseWorkspace.update_eq_ok.mpr ⟨rfl, hfits, rfl⟩
    have hw' : (DenseWorkspace.mk ⟨2, 1, 1, 1⟩ (held FloatingPoint.nan 2 1 4)).dims =
        (onesDense FloatingPoint.nan).dims := rfl
    obtain ⟨r', -, hagree, hover⟩ := dense alike_onesDense hu hw'
    obtain ⟨hr, hr'⟩ := hover hzero ⟨rfl, rfl, rfl, rfl⟩ ⟨rfl, rfl, rfl, rfl⟩ ⟨[1], [1]⟩
      ⟨[FloatingPoint.nan], [FloatingPoint.nan]⟩ ⟨rfl, rfl⟩ ⟨rfl, rfl⟩
    exact ⟨_, _, _, r', _, _, _, rfl, rfl, hr, hr', hagree.eq rfl rfl rfl⟩

end TwoRuns

end HorizonQp
