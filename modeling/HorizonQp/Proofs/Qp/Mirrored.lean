/-
  HorizonQp.Proofs.Qp.Mirrored — the numbers that are held twice.

  The dynamics offset `b` and the linear costs of inputs and states are held in a vector, and
  once more in the last row of an augmented matrix. A factorization reads the row, the
  residuals read the vector, and nothing but the calls keeps the two together.

  `Repeats` says that they are together, entry by entry. An entry of the last row is written
  by exactly the calls that write its entry of the vector, and both get the same number
  (`written_last`, `given?_last`), so setting a field keeps `Repeats` (`Repeats.run`), and so
  do a load, which clears both and then sets fields, and a change of bounds, which moves
  neither.

  The problems that are reached by calls, with no write over a view, are `Served`. A call
  works in place: what the steps before a failure did stays done (`Call.leaves`). In every
  served problem the rows and the vectors are the same numbers (`mirrored_of_served`).
-/

import HorizonQp.Proofs.Qp.Binding
import HorizonQp.Proofs.Qp.Marshalling
import HorizonQp.Proofs.Qp.Resizing

namespace HorizonQp

open Linear (Matrix Order)

/-! ## The last row of a matrix -/

/-- The entries of the last row. -/
def Linear.Matrix.lastRow? {α : Type} (M : Matrix α) : Option (List α) :=
  (List.range M.cols).mapM (M.entry? (M.rows - 1))

theorem Linear.Matrix.lastRow?_eq {α : Type} [Zero α] {M : Matrix α} {x : List α} (hl : x.length = M.cols)
    (h : ∀ c < M.cols, M.entry? (M.rows - 1) c = x[c]?) : M.lastRow? = some x := by
  have hx : (List.range M.cols).map (x.getD · 0) = x := by
    apply List.ext_getElem
    · simp [hl]
    · intro c h1 h2
      simp [List.getElem?_eq_getElem h2]
  have hget : ∀ c ∈ List.range M.cols, M.entry? (M.rows - 1) c = some (x.getD c 0) := by
    intro c hc
    have hc := List.mem_range.mp hc
    rw [h c hc, List.getD_eq_getElem?_getD, List.getElem?_eq_getElem (hl.symm ▸ hc), Option.getD_some]
  rw [lastRow?, mapM_of_forall hget, hx]

/-- The vector that the last row of the matrix repeats, as far as the row goes. -/
def MatBlock.repeated : MatBlock → Option VecBlock
  | .BAbt => some .b
  | .RSQrq => some .rqz
  | .DCt => none

namespace Dims

variable (d : Dims) (i : Nat)

/-- The place of entry `c` of the last row. -/
def lastPlace (block : MatBlock) (c : Nat) : Nat := ((block.shape d i).1 - 1) + (block.shape d i).1 * c

variable {d i} {f : Field} {block : MatBlock} {vec : VecBlock} {c : Nat}

section Places

variable (hv : block.repeated = some vec)
include hv

theorem repeated_count (N : Nat) : vec.region.count N = block.region.count N := by
  cases block <;> cases hv <;> rfl

theorem repeated_cols : (block.shape d i).2 ≤ vec.len d i := by
  cases block <;> cases hv
  · exact Nat.le_refl _
  · exact Nat.le_add_right _ _

theorem repeated_rows : 0 < (block.shape d i).1 := by
  cases block <;> cases hv <;> exact Nat.succ_pos _

theorem lastPlace_mod (c : Nat) : d.lastPlace i block c % (block.shape d i).1 = (block.shape d i).1 - 1 := by
  have hpos := repeated_rows (d := d) (i := i) hv
  rw [lastPlace, Nat.add_mul_mod_self_left, Nat.mod_eq_of_lt (Nat.sub_lt hpos Nat.one_pos)]

theorem lastPlace_div (c : Nat) : d.lastPlace i block c / (block.shape d i).1 = c := by
  have hpos := repeated_rows (d := d) (i := i) hv
  rw [lastPlace, Nat.add_mul_div_left _ _ hpos, Nat.div_eq_of_lt (Nat.sub_lt hpos Nat.one_pos), Nat.zero_add]

theorem lastPlace_lt (hc : c < (block.shape d i).2) : d.lastPlace i block c < block.region.entries d i := by
  have hpos := repeated_rows (d := d) (i := i) hv
  have hle := Nat.mul_le_mul_left (block.shape d i).1 (show c + 1 ≤ _ from hc)
  rw [Nat.mul_succ] at hle
  rw [block.entries_region, lastPlace]
  omega

end Places

/-! ## The fields that are held twice -/

/-- A field that a last row repeats stands in the vector at the same entries, with its own sign. -/
theorem augmented_field {col0 : Nat} (ha : (d.vecSlotAt i f).augmented = some (block, col0)) :
    f.kind = .vector ∧ block.repeated = some (d.vecSlotAt i f).block ∧ (d.vecSlotAt i f).offset = col0 ∧
      (d.vecSlotAt i f).negated = false := by
  cases f <;> cases ha <;> exact ⟨rfl, rfl, rfl, rfl⟩

/-- A field of the vector that starts within the row is repeated. -/
theorem repeated_field (hk : f.kind = .vector) (hv : block.repeated = some (d.vecSlotAt i f).block)
    (hc : (d.vecSlotAt i f).offset < (block.shape d i).2) :
    (d.vecSlotAt i f).augmented = some (block, (d.vecSlotAt i f).offset) := by
  cases block <;> cases f <;> first | (cases hk; done) | (cases hv; done) | rfl | skip
  all_goals
    simp only [vecSlotAt, MatBlock.shape, nuxAt] at hc
    omega

theorem mirrors_last (hv : block.repeated = some vec) : d.Mirrors i f block.region (d.lastPlace i block c) ↔
    ∃ col0, (d.vecSlotAt i f).augmented = some (block, col0) ∧ col0 ≤ c ∧ c < col0 + (d.vecSlotAt i f).len := by
  constructor
  · intro h
    obtain ⟨block', col0, ha, hr, -, h1, h2⟩ := h
    cases MatBlock.region_inj hr
    rw [lastPlace_div hv] at h1 h2
    exact ⟨col0, ha, h1, h2⟩
  · intro h
    obtain ⟨col0, ha, h1, h2⟩ := h
    refine ⟨block, col0, ha, rfl, ?_, ?_⟩
    · rw [lastPlace_mod hv]
      exact ⟨Nat.le_refl _, Nat.lt_succ_self _⟩
    · rw [lastPlace_div hv]
      exact ⟨h1, h2⟩

/-- Every entry of the row repeats a field. -/
theorem exists_mirrors (hv : block.repeated = some vec) (hc : c < (block.shape d i).2) :
    ∃ g, d.Mirrors i g block.region (d.lastPlace i block c) := by
  cases block with
  | BAbt => exact ⟨.b, (mirrors_last hv).mpr ⟨0, rfl, Nat.zero_le c, by rw [Nat.zero_add]; exact hc⟩⟩
  | RSQrq =>
    by_cases hu : c < d.nuAt i
    · exact ⟨.r, (mirrors_last hv).mpr ⟨0, rfl, Nat.zero_le c, by rw [Nat.zero_add]; exact hu⟩⟩
    · exact ⟨.q, (mirrors_last hv).mpr ⟨d.nuAt i, rfl, Nat.le_of_not_lt hu, hc⟩⟩
  | DCt => cases hv

end Dims

namespace Qp

section Entries

variable {d : Dims} {i : Nat} {f : Field} {block : MatBlock} {vec : VecBlock} {c : Nat}
  (hv : block.repeated = some vec) (hc : c < (block.shape d i).2)
include hv hc

/-- An entry of the last row is written when its entry of the vector is. -/
theorem written_last : Written d i f block.region (d.lastPlace i block c) ↔ Written d i f vec.region c := by
  constructor
  · intro h
    rcases h with h | h
    · obtain ⟨g, hg⟩ := Dims.exists_mirrors hv hc
      exact absurd h (Dims.mirrors_apart hg)
    · obtain ⟨col0, ha, h1, h2⟩ := (Dims.mirrors_last hv).mp h
      obtain ⟨hk, hr, rfl, -⟩ := Dims.augmented_field ha
      cases hv.symm.trans hr
      exact Or.inl ((Dims.owns_vector hk).mpr ⟨rfl, h1, h2⟩)
  · intro h
    rcases h with h | ⟨block', _, _, hr, _⟩
    · cases hk : f.kind with
      | matrix => exact absurd ((Dims.owns_matrix hk).mp h).1.symm (MatBlock.region_ne_vec _ _)
      | index => exact absurd ((Dims.owns_index hk).mp h) (VecBlock.region_ne_idx _ _)
      | vector =>
        obtain ⟨hr, h1, h2⟩ := (Dims.owns_vector hk).mp h
        cases VecBlock.region_inj hr
        exact Or.inr ((Dims.mirrors_last hv).mpr
          ⟨_, Dims.repeated_field hk hv (Nat.lt_of_le_of_lt h1 hc), h1, h2⟩)
    · exact absurd hr.symm (MatBlock.region_ne_vec _ _)

/-- Both entries get the same number. -/
theorem given?_last {α : Type} [Neg α] (h : Written d i f vec.region c) (order : Order) (data : List α) :
    d.given? i f order data block.region (d.lastPlace i block c) = d.given? i f order data vec.region c := by
  rcases (written_last hv hc).mpr h with h' | h'
  · obtain ⟨g, hg⟩ := Dims.exists_mirrors hv hc
    exact absurd h' (Dims.mirrors_apart hg)
  · obtain ⟨col0, ha, -, -⟩ := (Dims.mirrors_last hv).mp h'
    obtain ⟨hk, hr, hoff, hneg⟩ := Dims.augmented_field ha
    cases hv.symm.trans hr
    unfold Dims.given?
    rw [hk]
    simp only [if_pos, if_neg (MatBlock.region_ne_vec block _), ha, Option.bind_some, Dims.lastPlace_div hv, hoff,
      VecSlot.held, hneg, Bool.false_eq_true, if_false]

end Entries

variable {α : Type} [Stored α]

/-! ## What the calls keep -/

/-- Every last row repeats its vector. -/
def Repeats (q : Qp α) : Prop :=
  ∀ block vec, block.repeated = some vec → ∀ i < block.region.count q.dims.N, ∀ c < (block.shape q.dims i).2,
    (q.numbers block.region i)[q.dims.lastPlace i block c]? = (q.numbers vec.region i)[c]?

section Views

variable [Zero α] {q : Qp α}

/-- The last rows are what the vectors hold: `BAbt` repeats `b`, and `RSQrq` the entries of
    `rqz` for inputs and states. -/
structure Mirrored (q : Qp α) : Prop where
  dynamics : ∀ i < q.dims.N, ∃ M x, q.matrix? .BAbt i = some M ∧ q.vector? .b i = some x ∧ M.lastRow? = some x
  costs : ∀ i ≤ q.dims.N, ∃ M x, q.matrix? .RSQrq i = some M ∧ q.vector? .rqz i = some x ∧
    M.lastRow? = some (x.take (q.dims.nuAt i + q.dims.nxAt i))

/-- Where the entries agree, the views do. -/
theorem Repeats.lastRow? (hm : q.Repeats) (h : q.Bound) {block : MatBlock} {vec : VecBlock}
    (hv : block.repeated = some vec) {i : Nat} (hi : i < block.region.count q.dims.N) :
    ∃ M x, q.matrix? block i = some M ∧ q.vector? vec i = some x ∧
      M.lastRow? = some (x.take (block.shape q.dims i).2) := by
  have hi' : i < vec.region.count q.dims.N := by rwa [Dims.repeated_count hv]
  have hl := h.length_numbers vec.isFloat_region hi'
  rw [vec.entries_region] at hl
  have hle := Dims.repeated_cols (d := q.dims) (i := i) hv
  refine ⟨_, _, (h.matrix?_eq block i).trans (if_pos hi), (h.vector?_eq vec i).trans (if_pos hi'), ?_⟩
  refine Matrix.lastRow?_eq ?_ fun c hc => ?_
  · rw [List.length_take, hl]
    exact Nat.min_eq_left hle
  · have hc : c < (block.shape q.dims i).2 := hc
    rw [List.getElem?_take_of_lt hc]
    exact hm block vec hv i hi c hc

theorem Repeats.mirrored (hm : q.Repeats) (h : q.Bound) : q.Mirrored where
  dynamics i hi := by
    obtain ⟨M, x, hM, hx, hrow⟩ := hm.lastRow? h (show MatBlock.BAbt.repeated = some .b from rfl) hi
    have hl : x.length = q.dims.nxAt (i + 1) := by
      rw [h.vector?_eq, if_pos (show i < VecBlock.b.region.count q.dims.N from hi)] at hx
      cases hx
      exact h.length_numbers rfl hi
    refine ⟨M, x, hM, hx, hrow.trans (congrArg some (List.take_of_length_le ?_))⟩
    exact Nat.le_of_eq hl
  costs i hi := hm.lastRow? h rfl (show i < MatBlock.RSQrq.region.count q.dims.N from Nat.lt_succ_of_le hi)

end Views

section Zeros

variable [Zero α] [LawfulStored α]

/-- A problem without numbers repeats them. -/
theorem repeats_of_zero {q : Qp α} (h : q.Bound)
    (hz : ∀ p, q.layout.IsNumber q.block p → q.block.bytes[p]? = some 0) : q.Repeats := by
  intro block vec hv i hi c hc
  have hi' : i < vec.region.count q.dims.N := by rwa [Dims.repeated_count hv]
  have hlen : c < vec.region.entries q.dims i := by
    rw [vec.entries_region]
    exact Nat.lt_of_lt_of_le hc (Dims.repeated_cols hv)
  rw [h.numbers_zero hz block.isFloat_region hi, h.numbers_zero hz vec.isFloat_region hi', List.getElem?_replicate,
    List.getElem?_replicate, if_pos (Dims.lastPlace_lt hv hc), if_pos hlen]

theorem repeats_of_bind {d : Dims} (hd : d.Consistent) {b : Block} {q : Qp α} (h : bind d b = .ok q) : q.Repeats := by
  refine repeats_of_zero (bound_of_bind hd h) fun p hp => ?_
  unfold Layout.IsNumber at hp
  rw [(bind_base h).1] at hp
  exact bind_zero h hp

theorem repeats_of_cleared {q q' : Qp α} (h : q.Bound) (hc : q.cleared = some q') : q'.Repeats := by
  have hk := h.toLaid.cleared hc
  refine repeats_of_zero (hk.bound h) fun p hp => ?_
  obtain ⟨x, rfl⟩ : ∃ x, p = q'.block.base + x := ⟨p - q'.block.base, by have := hp.1; omega⟩
  obtain ⟨h1, h2⟩ := hp
  rw [hk.layout] at h1 h2
  exact cleared_zero hc (by omega) (by omega)

variable [Neg α]

/-- Setting a field keeps the rows and the vectors together. -/
theorem Repeats.run {q q' : Qp α} (hm : q.Repeats) (h : q.Bound) {order : Order} {w : Write α}
    (hr : w.run order q = .ok q') : q'.Repeats := by
  have ch := Write.run_changed h hr
  intro block vec hv i hi c hc
  rw [ch.dims] at hi hc ⊢
  have hi' : i < vec.region.count q.dims.N := by rwa [Dims.repeated_count hv]
  by_cases hw : i = w.stage ∧ Written q.dims w.stage w.field vec.region c
  · obtain ⟨rfl, hw⟩ := hw
    have hlast := (written_last hv hc).mpr hw
    rcases w with ⟨i, f, xs | ns⟩
    · rw [Write.setFloats_numbers h hr hw, Write.setFloats_numbers h hr hlast, given?_last hv hc hw]
    · -- an index field has no numbers
      obtain ⟨hk, -⟩ := setIndex_eq_ok.mp hr
      exact absurd (written_index (Field.expectKind_eq_ok.mp hk) hw) (VecBlock.region_ne_idx _ _)
  · rw [ch.numbers_eq h block.isFloat_region hi, ch.numbers_eq h vec.isFloat_region hi']
    · exact hm block vec hv i hi c hc
    · intro hs ht
      exact hw ⟨hs, ht⟩
    · intro hs ht
      subst hs
      exact hw ⟨rfl, (written_last hv hc).mp ht⟩

theorem Repeats.runs {q q' : Qp α} (hm : q.Repeats) (h : q.Bound) {order : Order} {ws : List (Write α)}
    (hr : Write.runs order ws q = .ok q') : q'.Repeats := by
  induction ws generalizing q with
  | nil =>
    cases hr
    exact hm
  | cons w ws ih =>
    rw [Write.runs, List.map_cons, inTurn_cons, Attempt.bind_eq_ok] at hr
    obtain ⟨q₁, hw, hr⟩ := hr
    exact ih (hm.run h hw) (Write.run_changed h hw).bound hr

/-- A load clears the rows and the vectors and then sets fields. -/
theorem repeats_of_load {q q' : Qp α} (h : q.Bound) {stages : List (StageData α)} {order : Order}
    (hs : q.load stages order = .ok q') : q'.Repeats := by
  obtain ⟨-, -, q₁, hc, hw⟩ := load_eq_ok.mp hs
  rw [← Write.runs_fromStage] at hw
  exact (repeats_of_cleared h hc).runs ((h.toLaid.cleared hc).bound h) hw

theorem Repeats.setMatrix {q q' : Qp α} (hm : q.Repeats) (h : q.Bound) {f : Field} {i : Nat} {data : List α}
    {order : Order} (hs : q.setMatrix f i data order = .ok q') : q'.Repeats := by
  obtain ⟨-, hk, -⟩ := h.setMatrix_changed hs
  exact hm.run h ((Write.run_matrix hk).trans hs)

theorem Repeats.setVector {q q' : Qp α} (hm : q.Repeats) (h : q.Bound) {f : Field} {i : Nat} {data : List α}
    (hs : q.setVector f i data = .ok q') : q'.Repeats := by
  obtain ⟨-, hk, -⟩ := h.setVector_changed hs
  have hr : Write.run .columnMajor ⟨i, f, .inl data⟩ q = .ok q' := (Write.run_vector hk).trans hs
  exact hm.run h hr

theorem Repeats.setIndex {q q' : Qp α} (hm : q.Repeats) (h : q.Bound) {f : Field} {i : Nat} {data : List Nat}
    (hs : q.setIndex f i data = .ok q') : q'.Repeats := by
  have hr : Write.run .columnMajor ⟨i, f, .inr data⟩ q = .ok q' := hs
  exact hm.run h hr

theorem Repeats.set {q q' : Qp α} (hm : q.Repeats) (h : q.Bound) {name : String} {i : Nat} {data : List α}
    (hs : q.set name i data = .ok q') : q'.Repeats := by
  obtain ⟨f, -, ⟨-, hs⟩ | ⟨-, hs⟩⟩ := set_eq_ok.mp hs
  · exact hm.setMatrix h hs
  · exact hm.setVector h hs

omit [Zero α] [Neg α] [LawfulStored α] in
/-- A change of bounds moves neither the rows nor the vectors. -/
theorem Repeats.resize [FixedWidth α] {q q' : Qp α} (hm : q.Repeats) (h : q.Bound) {nbu nbx : List Nat}
    (hr : q.resize nbu nbx = .ok q') : q'.Repeats := by
  obtain ⟨-, -, hd, -⟩ := h.resize_parts hr
  intro block vec hv i hi c hc
  have hi : i < block.region.count q.dims.N := by rwa [hd] at hi
  have hshape : block.shape q'.dims i = block.shape q.dims i := by
    rw [hd]
    cases block <;> rfl
  have hblock : block.region.isBounds = false := by cases block <;> rfl
  have hvec : vec.region.isBounds = false := by cases block <;> cases hv <;> rfl
  rw [hshape] at hc
  rw [resize_numbers h hr hblock block.isFloat_region hi,
    resize_numbers h hr hvec vec.isFloat_region (by rwa [Dims.repeated_count hv]), Dims.lastPlace, hshape]
  exact hm block vec hv i hi c hc

end Zeros

end Qp

/-! ## Calls in place -/

namespace Call

variable {α : Type} [Stored α] [Neg α]

/-- The call goes through the fields, not over a view. -/
def ByFields : Call α → Prop
  | .writeMatrix .. | .writeVector .. | .writeIndices .. => False
  | _ => True

/-- The steps of a call, in the order it makes them. -/
def steps : Call α → List (Qp α → Attempt QpError (Qp α))
  | .setVector f stage data => Qp.vectorSteps f stage data
  | .load stages order => Qp.loadSteps stages order
  | .set name stage data =>
    match Field.ofName? name with
    | some f => if f.kind = .vector then Qp.vectorSteps f stage data else [fun q => q.set name stage data]
    | none => [fun q => q.set name stage data]
  | c => [fun q => c.run q]

/-- The problem as a call leaves it, whether it goes through or fails on the way. -/
def leaves (q : Qp α) (c : Call α) : Qp α := (inPlace c.steps q).1

theorem after_eq (q : Qp α) (c : Call α) : c.after q = (allOrNothing q (c.run q)).1 := by
  rw [after]
  cases c.run q <;> rfl

/-- A call does everything or nothing. -/
theorem leaves_eq_after [Zero α] [LawfulStored α] {q : Qp α} (h : q.Bound) (c : Call α) : c.leaves q = c.after q := by
  have single : ∀ step : Qp α → Attempt QpError (Qp α), (inPlace [step] q).1 = (allOrNothing q (step q)).1 :=
    fun step => by rw [inPlace_single]
  rw [after_eq, leaves]
  cases c with
  | setVector f stage data => exact congrArg Prod.fst (h.setVector_inPlace f stage data)
  | load stages order => exact congrArg Prod.fst (h.load_inPlace stages order)
  | set name stage data =>
    rw [steps]
    cases hf : Field.ofName? name with
    | none => exact single _
    | some f =>
      by_cases hk : f.kind = .vector
      · have hset : Call.run q (.set name stage data) = q.setVector f stage data := Qp.set_vector hf hk
        rw [hset]
        simp only [if_pos hk]
        exact congrArg Prod.fst (h.setVector_inPlace f stage data)
      · simp only [if_neg hk]
        exact single _
  | setMatrix f stage data order => exact single _
  | setIndex f stage data => exact single _
  | resize nbu nbx => exact single _
  | writeMatrix block stage data => exact single _
  | writeVector block stage data => exact single _
  | writeIndices block stage data => exact single _

end Call

/-! ## Every problem that the calls lead to -/

namespace Qp

variable {α : Type} [Stored α] [Zero α] [Neg α] [LawfulStored α]

omit [Zero α] [LawfulStored α] in
/-- The problems that calls lead to, with no write over a view. -/
inductive Served : Qp α → Prop where
  | bind {d : Dims} {b : Block} {q : Qp α} : d.Consistent → Qp.bind d b = .ok q → Served q
  | call {q : Qp α} (c : Call α) : c.ByFields → Served q → Served (c.leaves q)

/-- One call keeps the rows and the vectors together. -/
theorem Repeats.after {q : Qp α} (hm : q.Repeats) (h : q.Bound) {c : Call α} (hc : c.ByFields) :
    (c.after q).Repeats := by
  cases hr : c.run q with
  | error failure =>
    rw [Call.after_of_error hr]
    exact hm
  | ok q' =>
    rw [Call.after_of_ok hr]
    cases c with
    | set name stage data => exact hm.set h hr
    | setMatrix f stage data order => exact hm.setMatrix h hr
    | setVector f stage data => exact hm.setVector h hr
    | setIndex f stage data => exact hm.setIndex h hr
    | load stages order => exact repeats_of_load h hr
    | resize nbu nbx => exact hm.resize h hr
    | writeMatrix block stage data => exact hc.elim
    | writeVector block stage data => exact hc.elim
    | writeIndices block stage data => exact hc.elim

theorem Served.repeats {q : Qp α} (h : q.Served) : q.Bound ∧ q.Repeats := by
  induction h with
  | bind hd hb => exact ⟨bound_of_bind hd hb, repeats_of_bind hd hb⟩
  | call c hc _ ih =>
    obtain ⟨hb, hm⟩ := ih
    rw [Call.leaves_eq_after hb]
    exact ⟨call_bound hb c, hm.after hb hc⟩

/-- Whatever calls a problem went through, the numbers that are held twice are the same. -/
theorem mirrored_of_served {q : Qp α} (h : q.Served) : q.Mirrored := h.repeats.2.mirrored h.repeats.1

theorem mirrored_linear_cost : ∃ q q' : Qp Binary.Double, q.Served ∧ q.setVector .r 0 [1] = .ok q' ∧ q'.Mirrored ∧
    q'.getVector .r 0 1 = .ok [1] := by
  have hd : Dims.Consistent ⟨1, [2, 1], [1, 0], [2, 1], [1, 0], [1, 1], [1, 0], [1, 1]⟩ := by decide
  obtain ⟨q, hb, hq, -⟩ := @bind_filled Binary.Double _ _ hd _ rfl
  have hbound := bound_of_bind hd hb
  have hs : q.Served := .bind hd hb
  obtain ⟨q', hset⟩ : ∃ q', q.setVector .r 0 [1] = .ok q' :=
    hbound.setVector_accepts rfl (by rw [hq]; decide) (by rw [hq]; decide)
  have hrun : Call.run q (.setVector .r 0 [1]) = .ok q' := hset
  have hs' := hs.call (.setVector .r 0 [1]) trivial
  rw [Call.leaves_eq_after hbound, Call.after_of_ok hrun] at hs'
  exact ⟨q, q', hs, hset, mirrored_of_served hs', (hbound.setVector_reads Binary.Double.neg_neg hset).same⟩

end Qp

end HorizonQp
