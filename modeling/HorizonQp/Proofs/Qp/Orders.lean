/-
  HorizonQp.Proofs.Qp.Orders — column by column or row by row.

  A matrix can be given in either order. Two lists that give a field the same entries, each
  in its own order (`Dims.Restates`), are stored alike (`MatSlot.store_restates`), so setting
  the field does the same with either, a refusal included (`setFloats_restates`). A load of
  stages that say the same in two orders is one and the same load (`Laid.load_restates`).
-/

import Mathlib.Data.List.Forall2
import HorizonQp.Proofs.Qp.Writes

namespace HorizonQp

open Linear (Matrix Order)

/-! ## The same entries -/

/-- `xs'` in `order'` gives field `f` of stage `i` the entries that `xs` gives it in `order`. -/
structure Dims.Restates {α : Type} (d : Dims) (i : Nat) (f : Field) (order order' : Order) (xs xs' : List α) : Prop where
  length : xs'.length = xs.length
  matrix : ∀ m n, d.matrixShape f i = .ok (m, n) → ∀ r < m, ∀ c < n,
    xs'[order'.index m n r c]? = xs[order.index m n r c]?
  other : f.kind ≠ .matrix → xs' = xs

theorem Dims.restates_nil {α : Type} {d : Dims} {i : Nat} {f : Field} {order order' : Order} :
    d.Restates i f order order' ([] : List α) [] := ⟨rfl, fun _ _ _ _ _ _ _ => rfl, fun _ => rfl⟩

/-- `s'` in `order'` is the data that `s` is in `order`. -/
structure StageData.Restates {α : Type} (d : Dims) (i : Nat) (order order' : Order) (s s' : StageData α) : Prop where
  floats : List.Forall₂ (fun p p' => p'.1 = p.1 ∧ d.Restates i p.1 order order' p.2 p'.2) s.floatFields s'.floatFields
  indices : s'.indexFields = s.indexFields

/-- From stage `i` on, `stages'` in `order'` are the data that `stages` are in `order`. -/
structure Dims.RestatesFrom {α : Type} (d : Dims) (i : Nat) (order order' : Order) (stages stages' : List (StageData α)) :
    Prop where
  count : stages'.length = stages.length
  each : ∀ k s s', stages[k]? = some s → stages'[k]? = some s' → StageData.Restates d (i + k) order order' s s'

/-- The same fields are given. -/
theorem StageData.Restates.given {α : Type} {d : Dims} {i : Nat} {order order' : Order} {s s' : StageData α}
    (h : Restates d i order order' s s') :
    List.Forall₂ (fun p p' => p'.1 = p.1 ∧ d.Restates i p.1 order order' p.2 p'.2) s.givenFields s'.givenFields := by
  refine List.rel_filter ?_ h.floats
  rintro ⟨f, xs⟩ ⟨f', xs'⟩ ⟨-, hxs⟩
  simp only [Bool.not_eq_true', List.isEmpty_eq_false_iff, ← List.length_pos_iff, hxs.length]

namespace Dims.RestatesFrom

variable {α : Type} {d : Dims} {i : Nat} {order order' : Order} {s s' : StageData α} {stages stages' : List (StageData α)}
  (h : d.RestatesFrom i order order' (s :: stages) (s' :: stages'))
include h

theorem head : StageData.Restates d i order order' s s' := h.each 0 s s' rfl rfl

theorem tail : d.RestatesFrom (i + 1) order order' stages stages' where
  count := Nat.succ.inj h.count
  each k t t' ht ht' := by
    have hnext := h.each (k + 1) t t' ht ht'
    rwa [Nat.add_comm k 1, ← Nat.add_assoc] at hnext

end Dims.RestatesFrom

namespace MatSlot

variable {α : Type} {s : MatSlot} {order order' : Order} {xs xs' : List α}

/-- Storing looks up the data by the entries of the field. -/
theorem store_restates (h : ∀ r < s.rows, ∀ c < s.cols,
    xs'[order'.index s.rows s.cols r c]? = xs[order.index s.rows s.cols r c]?) (M : Matrix α) :
    s.store order' xs' M = s.store order xs M := by
  unfold store
  congr 1
  funext k x
  cases hu : s.userEntry? (k % M.rows) (k / M.rows) with
  | none => rfl
  | some p =>
    obtain ⟨-, hi, hj⟩ := blockEntry_of_userEntry? hu
    simp only [List.getD_eq_getElem?_getD, h _ hi _ hj]

end MatSlot

namespace Qp

variable {α : Type} [Stored α] {d : Dims} {i : Nat} {f : Field} {order order' : Order} {xs xs' : List α} {q q' : Qp α}

theorem setMatrix_restates (h : q.dims.Restates i f order order' xs xs') :
    q.setMatrix f i xs' order' = q.setMatrix f i xs order := by
  unfold setMatrix
  cases hs : q.dims.matSlot f i with
  | error failure => rfl
  | ok s =>
    have hshape : q.dims.matrixShape f i = .ok (s.rows, s.cols) := by
      rw [Dims.matrixShape, hs]
      rfl
    have hstore (M : Matrix α) : s.store? order' xs' M = s.store? order xs M := by
      rw [MatSlot.store?, MatSlot.store?, h.length, MatSlot.store_restates (h.matrix _ _ hshape)]
    simp only [Attempt.ok_bind, h.length, hstore]

theorem setFloats_restates [Neg α] (h : q.dims.Restates i f order order' xs xs') :
    setFloats order' i q f xs' = setFloats order i q f xs := by
  unfold setFloats
  cases hk : f.kind with
  | matrix => exact setMatrix_restates h
  | vector | index => rw [h.other (by rw [hk]; nofun)]

end Qp

/-! ## The same writes -/

namespace Write

variable {α : Type} [Stored α] [Neg α] {d : Dims} {i : Nat} {order order' : Order} {w w' : Write α} {ws ws' : List (Write α)}
  {s s' : StageData α} {stages stages' : List (StageData α)} {q q' : Qp α}

/-- The two writes do the same to every problem of dimensions `d`. -/
def Alike (d : Dims) (order order' : Order) (w w' : Write α) : Prop :=
  ∀ q : Qp α, q.dims = d → w'.run order' q = w.run order q

theorem run_kept [FixedWidth α] (h : q.Laid) (hr : w.run order q = .ok q') : q.Kept q' := by
  rcases w with ⟨i, f, xs | ns⟩
  · exact h.setFloats hr
  · exact h.setIndex hr

theorem runs_alike [FixedWidth α] (h : q.Laid) (hws : List.Forall₂ (Alike q.dims order order') ws ws') :
    runs order' ws' q = runs order ws q := by
  generalize hd : q.dims = d at hws
  induction hws generalizing q with
  | nil => rfl
  | @cons w w' ws ws' hw _ ih =>
    show inTurn (w'.run order' :: ws'.map (run order')) q = inTurn (w.run order :: ws.map (run order)) q
    rw [inTurn_cons, inTurn_cons, hw q hd]
    cases hr : w.run order q with
    | error failure => rfl
    | ok q₁ =>
      have hk := run_kept h hr
      exact ih hk.laid (hk.dims.trans hd)

theorem alike_ofStage (h : StageData.Restates d i order order' s s') :
    List.Forall₂ (Alike d order order') (ofStage i s) (ofStage i s') := by
  refine List.rel_append (List.rel_map ?_ h.given) ?_
  · rintro ⟨f, xs⟩ ⟨f', xs'⟩ ⟨hf, hxs⟩ q rfl
    cases hf
    exact Qp.setFloats_restates hxs
  · rw [h.indices, List.forall₂_same]
    intro w hw q _
    rcases List.mem_map.mp hw with ⟨_, -, rfl⟩
    rfl

theorem alike_fromStage (h : d.RestatesFrom i order order' stages stages') :
    List.Forall₂ (Alike d order order') (fromStage i stages) (fromStage i stages') := by
  induction stages generalizing i stages' with
  | nil =>
    cases List.length_eq_zero_iff.mp h.count
    exact .nil
  | cons s stages ih =>
    rcases List.exists_cons_of_length_eq_add_one h.count with ⟨s', stages', rfl⟩
    exact List.rel_append (alike_ofStage h.head) (ih h.tail)

end Write

/-! ## The same load -/

theorem Attempt.forM_congr {ε α β : Type} {f : α → Attempt ε PUnit} {g : β → Attempt ε PUnit} {xs : List α} {ys : List β}
    (h : List.Forall₂ (fun x y => g y = f x) xs ys) : ys.forM g = xs.forM f := by
  induction h with
  | nil => rfl
  | @cons x y xs ys hxy _ ih =>
    show (g y >>= fun _ => ys.forM g) = (f x >>= fun _ => xs.forM f)
    rw [hxy, ih]

namespace Dims

variable {α : Type} {d : Dims} {i : Nat} {order order' : Order} {s s' : StageData α} {stages stages' : List (StageData α)}

/-- The checks of a load ask for lengths and indices. -/
theorem checkStageData_restates (h : StageData.Restates d i order order' s s') :
    d.checkStageData i s' = d.checkStageData i s := by
  rw [checkStageData, checkStageData, h.indices]
  refine congrArg (· >>= _) (Attempt.forM_congr (h.given.imp ?_))
  rintro ⟨f, xs⟩ ⟨f', xs'⟩ ⟨hf, hxs⟩
  cases hf
  simp only [checkFloats, hxs.length]

theorem checkStages_restates (h : d.RestatesFrom i order order' stages stages') :
    d.checkStages i stages' = d.checkStages i stages := by
  induction stages generalizing i stages' with
  | nil =>
    cases List.length_eq_zero_iff.mp h.count
    rfl
  | cons s stages ih =>
    rcases List.exists_cons_of_length_eq_add_one h.count with ⟨s', stages', rfl⟩
    rw [checkStages, checkStages, checkStageData_restates h.head, ih h.tail]

end Dims

/-- The data of the stages in the other order load alike. -/
theorem Qp.Laid.load_restates {α : Type} [Stored α] [FixedWidth α] [Neg α] {order order' : Order}
    {stages stages' : List (StageData α)} {q : Qp α} (h : q.Laid) (hs : q.dims.RestatesFrom 0 order order' stages stages') :
    q.load stages' order' = q.load stages order := by
  unfold Qp.load
  rw [hs.count, Dims.checkStages_restates hs]
  refine bind_congr fun _ => bind_congr fun _ => ?_
  cases hc : q.cleared with
  | none => rfl
  | some q₁ =>
    have hk := h.cleared hc
    rw [Attempt.require_some, Attempt.ok_bind, Attempt.ok_bind, ← Write.runs_fromStage, ← Write.runs_fromStage]
    refine Write.runs_alike hk.laid ?_
    rw [hk.dims]
    exact Write.alike_fromStage hs

end HorizonQp
