/-
  HorizonQp.Proofs.Qp.Calls — what an accepted call did.

  An accepted call passed its checks and wrote over views (`setMatrix_eq_ok`,
  `setVector_eq_ok`, `setIndex_eq_ok`, `set_eq_ok`, `load_eq_ok`). Writes over views keep
  the problem in its block, with the dimensions and the layout it had (`Kept`), and so does
  clearing its numbers. Binding puts it there, whatever the dimensions (`laid_of_bind`).
-/

import HorizonQp.Proofs.Qp.Bound
import HorizonQp.Proofs.Qp.Store
import HorizonQp.Qp.Load

namespace HorizonQp

open Linear (Matrix Order)

namespace Qp

variable {α : Type} [Stored α]

/-! ## Taking a call apart -/

theorem setMatrix_eq_ok {q q' : Qp α} {f : Field} {i : Nat} {data : List α} {order : Order} :
    q.setMatrix f i data order = .ok q' ↔
      ∃ s, q.dims.matSlot f i = .ok s ∧ s.rows * s.cols = data.length ∧
        ∃ M, q.matrix? s.block i = some M ∧ s.Fits M.rows M.cols ∧
          q.writeMatrix? s.block i (s.store order data M) = some q' := by
  rw [setMatrix, Attempt.bind_eq_ok]
  refine exists_congr fun s => and_congr_right fun _ => ?_
  simp only [Attempt.check_eq_ok, checkLength_eq_ok, Attempt.bind_eq_ok, Attempt.require_eq_ok, MatSlot.store?_eq_some]
  refine and_congr_right fun hlen => exists_congr fun M => and_congr_right fun _ => ?_
  simp only [hlen, and_true, and_assoc, exists_and_left, exists_eq_left']

theorem setAugmented_eq_ok {q q' : Qp α} {i : Nat} {data : List α} {block : MatBlock} {col0 : Nat} :
    q.setAugmented i data (some (block, col0)) = .ok q' ↔
      ∃ M, q.matrix? block i = some M ∧ (MatSlot.lastRow block M.rows col0 data.length).Fits M.rows M.cols ∧
        q.writeMatrix? block i ((MatSlot.lastRow block M.rows col0 data.length).store .columnMajor data M) = some q' := by
  have hlen (M : Matrix α) : (MatSlot.lastRow block M.rows col0 data.length).rows *
      (MatSlot.lastRow block M.rows col0 data.length).cols = data.length := Nat.one_mul _
  simp only [setAugmented, Attempt.bind_eq_ok, Attempt.require_eq_ok, MatSlot.store?_eq_some, hlen, and_true, and_assoc,
    exists_and_left, exists_eq_left']

theorem setVector_eq_ok [Neg α] {q q' : Qp α} {f : Field} {i : Nat} {data : List α} :
    q.setVector f i data = .ok q' ↔
      ∃ s, q.dims.vecSlot f i = .ok s ∧ s.len = data.length ∧
        ∃ x y q₁, q.vector? s.block i = some x ∧ s.store? data x = some y ∧ q.writeVector? s.block i y = some q₁ ∧
          q₁.setAugmented i data s.augmented = .ok q' := by
  rw [setVector, Attempt.bind_eq_ok]
  refine exists_congr fun s => and_congr_right fun _ => ?_
  simp only [Attempt.check_eq_ok, checkLength_eq_ok, Attempt.bind_eq_ok, Attempt.require_eq_ok]
  refine and_congr_right fun _ => ?_
  constructor
  · intro h
    rcases h with ⟨x, hx, y, hy, q₁, hw, h⟩
    exact ⟨x, y, q₁, hx, hy, hw, h⟩
  · intro h
    rcases h with ⟨x, y, q₁, hx, hy, hw, h⟩
    exact ⟨x, hx, y, hy, q₁, hw, h⟩

omit [Stored α] in
theorem setIndex_eq_ok {q q' : Qp α} {f : Field} {i : Nat} {data : List Nat} :
    q.setIndex f i data = .ok q' ↔
      f.expectKind .index = .ok () ∧ q.dims.checkFieldStage f i = .ok () ∧
        ∃ limit block len held, q.dims.indexLimit? f i = some limit ∧ (∀ k ∈ data, k < limit) ∧
          q.dims.idxSlot? f i = some (block, len) ∧ q.indices? block i = some held ∧ held.length = data.length ∧
          q.writeIndices? block i data = some q' := by
  simp only [setIndex, Attempt.check_eq_ok, checkLength_eq_ok, checkIndices_eq_ok, Attempt.bind_eq_ok,
    Attempt.require_eq_ok]
  refine and_congr_right fun _ => and_congr_right fun _ => ?_
  constructor
  · intro h
    rcases h with ⟨limit, hlim, hall, ⟨block, len⟩, hslot, held, hheld, hlen, hw⟩
    exact ⟨limit, block, len, held, hlim, hall, hslot, hheld, hlen, hw⟩
  · intro h
    rcases h with ⟨limit, block, len, held, hlim, hall, hslot, hheld, hlen, hw⟩
    exact ⟨limit, hlim, hall, (block, len), hslot, held, hheld, hlen, hw⟩

/-- Setting a vector field by its name is setting the field. -/
theorem set_vector [Neg α] {q : Qp α} {name : String} {f : Field} (hf : Field.ofName? name = some f)
    (hk : f.kind = .vector) {i : Nat} {data : List α} : q.set name i data = q.setVector f i data := by
  simp only [set, fieldNamed, hf, Attempt.orReport, Attempt.ok_bind, hk]

/-- Setting by name is setting the field of that name. -/
theorem set_eq_ok [Neg α] {q q' : Qp α} {name : String} {i : Nat} {data : List α} :
    q.set name i data = .ok q' ↔
      ∃ f, Field.ofName? name = some f ∧
        ((f.kind = .matrix ∧ q.setMatrix f i data .columnMajor = .ok q') ∨
          (f.kind = .vector ∧ q.setVector f i data = .ok q')) := by
  simp only [set, fieldNamed, Attempt.bind_eq_ok, Attempt.orReport_eq_ok]
  refine exists_congr fun f => and_congr_right fun _ => ?_
  cases f.kind <;> simp [Attempt.fail]

omit [Stored α] in
theorem cleared_eq_some {q q' : Qp α} :
    q.cleared = some q' ↔ q'.dims = q.dims ∧ q'.layout = q.layout ∧ clearNumbers? q.layout q.block = some q'.block := by
  simp only [cleared, Option.bind_eq_bind, Option.bind_eq_some_iff, Option.pure_def, Option.some.injEq]
  constructor
  · intro h
    rcases h with ⟨b, hb, rfl⟩
    exact ⟨rfl, rfl, hb⟩
  · intro h
    rcases h with ⟨hd, hl, hb⟩
    exact ⟨q'.block, hb, by rw [← hd, ← hl]⟩

theorem load_eq_ok [Neg α] {q q' : Qp α} {stages : List (StageData α)} {order : Order} :
    q.load stages order = .ok q' ↔
      q.dims.stages = stages.length ∧ q.dims.checkStages 0 stages = .ok () ∧
        ∃ q₁, q.cleared = some q₁ ∧ writeStages order 0 stages q₁ = .ok q' := by
  simp only [load, Attempt.check_eq_ok, checkLength_eq_ok, Attempt.bind_eq_ok, Attempt.require_eq_ok]
  refine and_congr_right fun _ => ?_
  constructor
  · intro h
    rcases h with ⟨⟨⟩, hc, q₁, h₁, hw⟩
    exact ⟨hc, q₁, h₁, hw⟩
  · intro h
    rcases h with ⟨hc, q₁, h₁, hw⟩
    exact ⟨(), hc, q₁, h₁, hw⟩

theorem bind_eq_ok {d : Dims} {b : Block} {q : Qp α} :
    bind d b = .ok q ↔
      q.dims = d ∧ Layout.plan (Stored.width α) d = .ok q.layout ∧ q.layout.memsize ≤ b.size ∧
        b.base + q.layout.used ≤ b.size ∧
        ∃ b₁, q.layout.writeHeaders? b = some b₁ ∧ clearNumbers? q.layout b₁ = some q.block := by
  simp only [bind, Attempt.bind_eq_ok]
  constructor
  · intro h
    rcases h with ⟨l, hl, h⟩
    split at h
    · exact absurd h Attempt.fail_ne_ok
    split at h
    · exact absurd h Attempt.fail_ne_ok
    simp only [Attempt.bind_eq_ok, Attempt.require_eq_ok, Attempt.pure_eq_ok] at h
    obtain ⟨b₁, hw, b₂, hc, rfl⟩ := h
    exact ⟨rfl, hl, Nat.not_lt.mp ‹_›, Nat.not_lt.mp ‹_›, b₁, hw, hc⟩
  · intro h
    rcases h with ⟨rfl, hl, h1, h2, b₁, hw, hc⟩
    refine ⟨q.layout, hl, ?_⟩
    rw [if_neg (by omega), if_neg (by omega)]
    simp only [Attempt.bind_eq_ok, Attempt.require_eq_ok, Attempt.pure_eq_ok]
    exact ⟨b₁, hw, q.block, hc, rfl⟩

/-! ## What a call keeps -/

/-- The problem stays in its block, and keeps its dimensions and its layout. -/
structure Kept (q q' : Qp α) : Prop where
  laid : q'.Laid
  dims : q'.dims = q.dims
  layout : q'.layout = q.layout

theorem Kept.refl {q : Qp α} (h : q.Laid) : q.Kept q := ⟨h, rfl, rfl⟩

theorem Kept.trans {q q₁ q₂ : Qp α} (h : q.Kept q₁) (h' : q₁.Kept q₂) : q.Kept q₂ :=
  ⟨h'.laid, h'.dims.trans h.dims, h'.layout.trans h.layout⟩

theorem Kept.bound {q q' : Qp α} (k : q.Kept q') (h : q.Bound) : q'.Bound := ⟨k.laid, k.dims ▸ h.dims⟩

theorem Wrote.kept {q q' : Qp α} {kind : RegionKind} {i : Nat} {bs : List UInt8} (w : q.Wrote q' kind i bs)
    (h : q.Laid) : q.Kept q' := ⟨w.laid h, w.dims, w.layout⟩

/-- Clearing the numbers touches no table of headers. -/
theorem clearNumbers?_held {l : Layout} {size : Nat} {d : Dims} {b b' : Block} (hs : l.Sound size d) (h : l.HeldBy b)
    (hc : clearNumbers? l b = some b') : l.HeldBy b' := by
  refine h.write hs hc fun kind hk => Or.inl ?_
  obtain ⟨hm, hkind⟩ := hs.region_mem kind
  have hspan := hs.span _ hm
  have hf : kind.isFloat = false := by rcases hk with rfl | rfl | rfl <;> rfl
  rwa [hkind, hf, if_neg (by decide)] at hspan

theorem clearNumbers?_zero {l : Layout} {b b' : Block} (hc : clearNumbers? l b = some b') {p : Nat}
    (h1 : b.base + l.floatSpan.1 ≤ p) (h2 : p < b.base + l.floatSpan.2) : b'.bytes[p]? = some 0 := by
  rw [Block.getElem?_write? hc, List.length_replicate, if_pos ⟨h1, by omega⟩, List.getElem?_replicate, if_pos (by omega)]

theorem Laid.cleared {q q' : Qp α} (h : q.Laid) (hc : q.cleared = some q') : q.Kept q' := by
  obtain ⟨hd, hl, hb⟩ := cleared_eq_some.mp hc
  refine ⟨⟨hd ▸ h.spans, by rw [hd, hl]; exact h.layout, ?_⟩, hd, hl⟩
  rw [hl]
  exact clearNumbers?_held h.layout h.held hb

/-- Binding puts a problem of any dimensions in its block. -/
theorem laid_of_bind {d : Dims} {b : Block} {q : Qp α} (h : bind d b = .ok q) : q.Laid := by
  rcases bind_eq_ok.mp h with ⟨rfl, hl, -, hroom, b₁, hw, hc⟩
  have spans := Layout.spanned_of_plan hl (Layout.idx_fill_of_writeHeaders? hw)
  have hs := Layout.plan_sound spans hl
  exact ⟨spans, hs, clearNumbers?_held hs (Layout.writeHeaders?_held hs hroom hw).1 hc⟩

/-- A block with room for the planned layout is accepted. -/
theorem bind_accepts {d : Dims} (s : d.Spanned) {l : Layout} (hl : Layout.plan (Stored.width α) d = .ok l) {b : Block}
    (hsize : l.memsize ≤ b.size) (hroom : b.base + l.used ≤ b.size) :
    ∃ q : Qp α, bind d b = .ok q ∧ q.dims = d ∧ q.layout = l := by
  have hs := Layout.plan_sound s hl
  obtain ⟨b₁, hw⟩ := Layout.writeHeaders?_isSome hs hroom
  have hb := Layout.writeHeaders?_held hs hroom hw
  have hspan : b₁.base + l.floatSpan.1 + (List.replicate (l.floatSpan.2 - l.floatSpan.1) (0 : UInt8)).length ≤ b₁.size := by
    have h1 := hs.region_inside .BAbt
    have h2 : l.floatSpan = ((l.region .BAbt).offset, l.used) := rfl
    unfold Region.finish at h1
    rw [List.length_replicate, h2, hb.2.1, hb.2.2]
    simp only
    omega
  obtain ⟨b₂, hc⟩ := Block.write?_isSome hspan
  exact ⟨⟨d, l, b₂⟩, bind_eq_ok.mpr ⟨rfl, hl, hsize, hroom, b₁, hw, hc⟩, rfl, rfl⟩

theorem bound_of_bind {d : Dims} (hd : d.Consistent) {b : Block} {q : Qp α} (h : bind d b = .ok q) : q.Bound :=
  ⟨laid_of_bind h, (bind_eq_ok.mp h).1 ▸ hd⟩

theorem Laid.setIndex {q q' : Qp α} (h : q.Laid) {f : Field} {i : Nat} {data : List Nat}
    (hs : q.setIndex f i data = .ok q') : q.Kept q' := by
  obtain ⟨-, -, _, _, _, _, -, -, -, -, -, hw⟩ := setIndex_eq_ok.mp hs
  exact (h.writeIndices?_eq_some.mp hw).2.kept h

variable [FixedWidth α]

theorem Laid.setMatrix {q q' : Qp α} (h : q.Laid) {f : Field} {i : Nat} {data : List α} {order : Order}
    (hs : q.setMatrix f i data order = .ok q') : q.Kept q' := by
  obtain ⟨s, -, -, M, -, -, hw⟩ := setMatrix_eq_ok.mp hs
  exact (h.writeMatrix?_eq_some.mp hw).2.kept h

theorem Laid.setAugmented {q q' : Qp α} (h : q.Laid) {i : Nat} {data : List α} {at? : Option (MatBlock × Nat)}
    (hs : q.setAugmented i data at? = .ok q') : q.Kept q' := by
  match at?, hs with
  | none, hs =>
    cases hs
    exact Kept.refl h
  | some (block, col0), hs =>
    obtain ⟨M, -, -, hw⟩ := setAugmented_eq_ok.mp hs
    exact (h.writeMatrix?_eq_some.mp hw).2.kept h

variable [Neg α]

theorem Laid.setVector {q q' : Qp α} (h : q.Laid) {f : Field} {i : Nat} {data : List α}
    (hs : q.setVector f i data = .ok q') : q.Kept q' := by
  obtain ⟨s, -, -, x, y, q₁, -, -, hw, ha⟩ := setVector_eq_ok.mp hs
  have hk := (h.writeVector?_eq_some.mp hw).2.kept h
  exact hk.trans (hk.laid.setAugmented ha)

theorem Laid.set {q q' : Qp α} (h : q.Laid) {name : String} {i : Nat} {data : List α}
    (hs : q.set name i data = .ok q') : q.Kept q' := by
  obtain ⟨f, -, ⟨-, hs⟩ | ⟨-, hs⟩⟩ := set_eq_ok.mp hs
  · exact h.setMatrix hs
  · exact h.setVector hs

theorem Laid.setFloats {q q' : Qp α} (h : q.Laid) {order : Order} {i : Nat} {f : Field} {data : List α}
    (hs : setFloats order i q f data = .ok q') : q.Kept q' := by
  unfold Qp.setFloats at hs
  split at hs
  · exact h.setMatrix hs
  · exact h.setVector hs

theorem Laid.writeStage {q q' : Qp α} (h : q.Laid) {order : Order} {i : Nat} {s : StageData α}
    (hw : writeStage order i s q = .ok q') : q.Kept q' := by
  unfold Qp.writeStage at hw
  obtain ⟨q₁, hf, hi⟩ := Attempt.bind_eq_ok.mp hw
  have h₁ : q.Kept q₁ :=
    Attempt.foldlM_keeps (fun _ _ _ hk hs => hk.trans (hk.laid.setFloats hs)) (Kept.refl h) hf
  exact Attempt.foldlM_keeps (fun _ _ _ hk hs => hk.trans (hk.laid.setIndex hs)) h₁ hi

theorem Laid.writeStages {q q' : Qp α} (h : q.Laid) {order : Order} {i : Nat} {stages : List (StageData α)}
    (hw : writeStages order i stages q = .ok q') : q.Kept q' := by
  induction stages generalizing q i with
  | nil =>
    cases hw
    exact Kept.refl h
  | cons s stages ih =>
    unfold Qp.writeStages at hw
    obtain ⟨q₁, h₁, hw⟩ := Attempt.bind_eq_ok.mp hw
    have hk := h.writeStage h₁
    exact hk.trans (ih hk.laid hw)

theorem Laid.load {q q' : Qp α} (h : q.Laid) {stages : List (StageData α)} {order : Order}
    (hs : q.load stages order = .ok q') : q.Kept q' := by
  obtain ⟨-, -, q₁, hc, hw⟩ := load_eq_ok.mp hs
  have hk := h.cleared hc
  exact hk.trans (hk.laid.writeStages hw)

end Qp

end HorizonQp
