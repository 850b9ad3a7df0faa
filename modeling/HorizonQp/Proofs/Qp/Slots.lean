/-
  HorizonQp.Proofs.Qp.Slots — the slots of the fields, and which of them share entries.

  For dimensions with an entry per stage a field has the slot of the tables `matSlotAt` and
  `vecSlotAt` at every stage that has the field (`matSlot_eq_ok`, `vecSlot_eq_ok`), and the
  slot lies in its array (`matSlotAt_fits`, `vecSlotAt_inside`). The table of the vectors is
  that of words (`wordSlotAt`) where no stage has more bounds on inputs than bounds
  (`Addressable`): what was planned has counts that fit words, and no other start can wrap.

  An entry of an array is owned by the fields whose slot it is in (`Owns`), or mirrors an
  entry of `b`, `r` or `q` in the last row of a matrix (`Mirrors`). A vector is a sequence
  of parts and a field a run of them (`VecBlock.parts`, `Field.run`), so two fields share
  entries only when their runs meet: the bounds and their two parts (`owns_apart`). The
  last rows belong to no field (`mirrors_apart`).
-/

import HorizonQp.Proofs.Qp.Bound
import HorizonQp.Proofs.Qp.Store

namespace HorizonQp

open Linear (Matrix)
open Word (wrap wrap_of_lt limit)

namespace Field

/-- How many stages have the field over a horizon `N`. -/
def count (N : Nat) (f : Field) : Nat := if f.isDynamics then N else N + 1

/-- Two fields that share entries. -/
def overlaps : Field → Field → Bool
  | .lb, .lbu | .lb, .lbx | .lbu, .lb | .lbx, .lb => true
  | .ub, .ubu | .ub, .ubx | .ubu, .ub | .ubx, .ub => true
  | _, _ => false

/-- The array of an index field. -/
def idxBlock : Field → IdxBlock
  | .idxs => .idxs
  | _ => .idxb

theorem expectKind_eq_ok {f : Field} {kind : Kind} : f.expectKind kind = .ok () ↔ f.kind = kind := by
  unfold expectKind
  split <;> simp [*]

theorem idxBlock_stage {f : Field} (hk : f.kind = .index) {N i : Nat} (hi : i < f.count N) :
    i < f.idxBlock.region.count N := by
  cases f <;> cases hk <;> exact hi

theorem count_le (f : Field) (N : Nat) : f.count N ≤ N + 1 := by
  unfold count
  split <;> omega

end Field

namespace Dims

variable (d : Dims) (i : Nat)

/-! ## The tables -/

def matSlotAt : Field → MatSlot
  | .A => ⟨.BAbt, d.nxAt (i + 1), d.nxAt i, d.nuAt i, 0, true⟩
  | .B => ⟨.BAbt, d.nxAt (i + 1), d.nuAt i, 0, 0, true⟩
  | .Q => ⟨.RSQrq, d.nxAt i, d.nxAt i, d.nuAt i, d.nuAt i, false⟩
  | .S => ⟨.RSQrq, d.nuAt i, d.nxAt i, d.nuAt i, 0, true⟩
  | .R => ⟨.RSQrq, d.nuAt i, d.nuAt i, 0, 0, false⟩
  | .C => ⟨.DCt, d.ngAt i, d.nxAt i, d.nuAt i, 0, true⟩
  | .D => ⟨.DCt, d.ngAt i, d.nuAt i, 0, 0, true⟩
  | _ => ⟨.DCt, 0, 0, 0, 0, false⟩

def vecSlotAt : Field → VecSlot
  | .b => ⟨.b, 0, d.nxAt (i + 1), false, some (.BAbt, 0)⟩
  | .r => ⟨.rqz, 0, d.nuAt i, false, some (.RSQrq, 0)⟩
  | .q => ⟨.rqz, d.nuAt i, d.nxAt i, false, some (.RSQrq, d.nuAt i)⟩
  | .lb => ⟨.d, 0, d.nbAt i, false, none⟩
  | .ub => ⟨.d, d.nbAt i + d.ngAt i, d.nbAt i, true, none⟩
  | .lbu => ⟨.d, 0, d.nbuAt i, false, none⟩
  | .ubu => ⟨.d, d.nbAt i + d.ngAt i, d.nbuAt i, true, none⟩
  | .lbx => ⟨.d, d.nbuAt i, d.nbxAt i, false, none⟩
  | .ubx => ⟨.d, d.nbAt i + d.ngAt i + d.nbuAt i, d.nbxAt i, true, none⟩
  | .lg => ⟨.d, d.nbAt i, d.ngAt i, false, none⟩
  | .ug => ⟨.d, 2 * d.nbAt i + d.ngAt i, d.ngAt i, true, none⟩
  | .Zl => ⟨.Z, 0, d.nsAt i, false, none⟩
  | .Zu => ⟨.Z, d.nsAt i, d.nsAt i, false, none⟩
  | .zl => ⟨.rqz, d.nuAt i + d.nxAt i, d.nsAt i, false, none⟩
  | .zu => ⟨.rqz, d.nuAt i + d.nxAt i + d.nsAt i, d.nsAt i, false, none⟩
  | .ls => ⟨.d, 2 * d.nbAt i + 2 * d.ngAt i, d.nsAt i, false, none⟩
  | .us => ⟨.d, 2 * d.nbAt i + 2 * d.ngAt i + d.nsAt i, d.nsAt i, false, none⟩
  | _ => ⟨.Z, 0, 0, false, none⟩

/-- The slot with its start as a word. Only the upper bounds on states may start past one,
    in a record that counts more bounds on inputs than bounds. -/
def wordSlotAt : Field → VecSlot
  | .ubx => { d.vecSlotAt i .ubx with offset := wrap (d.vecSlotAt i .ubx).offset }
  | f => d.vecSlotAt i f

/-- Every array has one entry per stage, and every count and every start of a field is a word. -/
structure Addressable : Prop extends d.Shaped where
  words : d.FitsWords
  inputs : ∀ i ≤ d.N, d.nbuAt i ≤ d.nbAt i

variable {d i}

theorem Addressable.wordSlotAt_eq (h : d.Addressable) (hi : i ≤ d.N) (f : Field) :
    d.wordSlotAt i f = d.vecSlotAt i f := by
  have hrows := (h.words i hi).2.2
  have hinputs := h.inputs i hi
  cases f
  case ubx =>
    have hstart : (d.vecSlotAt i .ubx).offset < limit := by
      simp only [vecSlotAt]
      simp only [ncAt] at hrows
      omega
    rw [wordSlotAt, wrap_of_lt hstart]
  all_goals rfl

theorem checkFieldStage_eq_ok {f : Field} : d.checkFieldStage f i = .ok () ↔ i < f.count d.N := by
  unfold checkFieldStage Field.count
  cases f.isDynamics with
  | false =>
    show d.checkStage i = .ok () ↔ i < d.N + 1
    unfold checkStage
    split
    · exact ⟨nofun, fun h => by omega⟩
    · exact ⟨fun _ => by omega, fun _ => rfl⟩
  | true =>
    show d.checkTransition i = .ok () ↔ i < d.N
    unfold checkTransition
    split
    · exact ⟨nofun, fun h => by omega⟩
    · exact ⟨fun _ => by omega, fun _ => rfl⟩

theorem stage_le {f : Field} (hi : i < f.count d.N) : i ≤ d.N := by
  have := f.count_le d.N
  omega

theorem matSlot_eq_ok (s : d.Addressable) {f : Field} {slot : MatSlot} :
    d.matSlot f i = .ok slot ↔ f.kind = .matrix ∧ i < f.count d.N ∧ d.matSlotAt i f = slot := by
  simp only [matSlot, Attempt.bind_eq_ok, Attempt.check_eq_ok, Field.expectKind_eq_ok, checkFieldStage_eq_ok,
    Attempt.require_eq_ok]
  refine and_congr_right fun hk => and_congr_right fun hi => ?_
  have hN := stage_le hi
  simp only [matSlot?, s.spanned.nu_get hN, s.spanned.nx_get hN, s.spanned.ng_get hN, Option.bind_eq_bind, Option.bind_some]
  cases f <;> cases hk
  all_goals first | rw [s.spanned.ne_get hi] | skip
  all_goals exact Option.some_inj

/-- A stage with an entry for everything has the slots of the table, their starts as words. -/
theorem Spanned.vecSlot_eq_ok (s : d.Spanned) (hw : d.FitsWords) {f : Field} {slot : VecSlot} :
    d.vecSlot f i = .ok slot ↔
      f.kind = .vector ∧ i < f.count d.N ∧ i < d.nbu.length ∧ i < d.nbx.length ∧ d.wordSlotAt i f = slot := by
  simp only [vecSlot, Attempt.bind_eq_ok, Attempt.check_eq_ok, Field.expectKind_eq_ok, checkFieldStage_eq_ok,
    Attempt.require_eq_ok]
  refine and_congr_right fun hk => and_congr_right fun hi => ?_
  have hN := stage_le hi
  obtain ⟨-, hv, hc⟩ := hw i hN
  simp only [nuxAt, ncAt] at hv hc
  simp only [vecSlot?, s.nu_get hN, s.nx_get hN, s.nb_get hN, s.ng_get hN, s.ns_get hN, Option.bind_eq_bind,
    Option.bind_some, Option.bind_eq_some_iff, exists_entry]
  refine and_congr_right fun _ => and_congr_right fun _ => ?_
  cases f <;> cases hk
  all_goals first | rw [s.ne_get hi] | simp (disch := omega) only [wrap_of_lt]
  all_goals exact Option.some_inj

theorem vecSlot_eq_ok (s : d.Addressable) {f : Field} {slot : VecSlot} :
    d.vecSlot f i = .ok slot ↔ f.kind = .vector ∧ i < f.count d.N ∧ d.vecSlotAt i f = slot := by
  rw [s.spanned.vecSlot_eq_ok s.words]
  refine and_congr_right fun _ => and_congr_right fun hi => ?_
  have hN := stage_le hi
  rw [s.wordSlotAt_eq hN, and_iff_right (s.nbu.symm ▸ Nat.lt_succ_of_le hN),
    and_iff_right (s.nbx.symm ▸ Nat.lt_succ_of_le hN)]

theorem idxSlot?_eq (s : d.Addressable) {f : Field} (hk : f.kind = .index) (hi : i ≤ d.N) :
    d.idxSlot? f i = some (f.idxBlock, f.idxBlock.len d i) := by
  cases f <;> cases hk
  · rw [idxSlot?, s.spanned.nb_get hi]
    rfl
  · rw [idxSlot?, s.spanned.ns_get hi]
    rfl

/-- What an index is compared with is a word. -/
theorem indexLimit?_lt {f : Field} {n : Nat} (h : d.indexLimit? f i = some n) : n < limit := by
  cases f
  case idxb =>
    simp only [indexLimit?, nux?, Option.bind_eq_bind, Option.bind_eq_some_iff, Option.pure_def, Option.some.injEq] at h
    obtain ⟨_, -, _, -, rfl⟩ := h
    exact Word.wrap_lt _
  case idxs =>
    simp only [indexLimit?, Option.bind_eq_bind, Option.bind_eq_some_iff, Option.pure_def, Option.some.injEq] at h
    obtain ⟨_, -, _, -, rfl⟩ := h
    exact Word.wrap_lt _
  all_goals cases h

/-! ## Slots lie in their arrays -/

theorem matSlotAt_count {f : Field} (hk : f.kind = .matrix) (N : Nat) :
    (d.matSlotAt i f).block.region.count N = f.count N := by
  cases f <;> first | rfl | cases hk

theorem matSlotAt_fits {f : Field} (hk : f.kind = .matrix) :
    (d.matSlotAt i f).Fits ((d.matSlotAt i f).block.shape d i).1 ((d.matSlotAt i f).block.shape d i).2 := by
  cases f <;> cases hk
  all_goals
    simp [matSlotAt, MatSlot.Fits, MatSlot.height, MatSlot.width, MatBlock.shape, nuxAt]
    try omega

theorem vecSlotAt_count {f : Field} (hk : f.kind = .vector) (N : Nat) :
    (d.vecSlotAt i f).block.region.count N = f.count N := by
  cases f <;> first | rfl | cases hk

/-- The last row of an augmented matrix has room for the field. -/
theorem vecSlotAt_augmented {f : Field} {block : MatBlock} {col0 : Nat}
    (ha : (d.vecSlotAt i f).augmented = some (block, col0)) :
    (MatSlot.lastRow block (block.shape d i).1 col0 (d.vecSlotAt i f).len).Fits (block.shape d i).1 (block.shape d i).2 ∧
      ∀ N, block.region.count N = f.count N := by
  cases f <;> cases ha
  all_goals
    refine ⟨?_, fun _ => rfl⟩
    simp [MatSlot.lastRow, MatSlot.Fits, MatSlot.height, MatSlot.width, MatBlock.shape, nuxAt, vecSlotAt]

end Dims

/-- The fields of a bound problem start where a word says. -/
theorem Qp.Bound.addressable {α : Type} [Stored α] {q : Qp α} (h : q.Bound) : q.dims.Addressable where
  toShaped := h.dims.shaped
  words := h.layout.words
  inputs i hi := by
    have hb := ((Dims.consistent_iff.mp h.dims).2 i hi).1
    omega

/-! ## Parts of a vector -/

/-- The lengths of the parts of a vector, one behind the other. -/
def VecBlock.parts (d : Dims) (i : Nat) : VecBlock → List Nat
  | .b => [d.nxAt (i + 1)]
  | .rqz => [d.nuAt i, d.nxAt i, d.nsAt i, d.nsAt i]
  | .d => [d.nbuAt i, d.nbxAt i, d.ngAt i, d.nbuAt i, d.nbxAt i, d.ngAt i, d.nsAt i, d.nsAt i]
  | .m => []
  | .Z => [d.nsAt i, d.nsAt i]

/-- The parts that a vector field takes: the first, and the one behind the last. -/
def Field.run : Field → Nat × Nat
  | .b | .r | .Zl | .lbu => (0, 1)
  | .q | .Zu | .lbx => (1, 2)
  | .zl | .lg => (2, 3)
  | .zu | .ubu => (3, 4)
  | .lb => (0, 2)
  | .ub => (3, 5)
  | .ubx => (4, 5)
  | .ug => (5, 6)
  | .ls => (6, 7)
  | .us => (7, 8)
  | _ => (0, 0)

theorem total_take_mono (ns : List Nat) {a b : Nat} (h : a ≤ b) : total (ns.take a) ≤ total (ns.take b) := by
  obtain ⟨c, rfl⟩ := Nat.le.dest h
  rw [List.take_add, total_append]
  exact Nat.le_add_right _ _

namespace Dims

variable {d : Dims} {i : Nat}

theorem vecSlotAt_parts (hd : d.Consistent) (hi : i ≤ d.N) {f : Field} (hk : f.kind = .vector) :
    (d.vecSlotAt i f).offset = total (((d.vecSlotAt i f).block.parts d i).take f.run.1) ∧
      (d.vecSlotAt i f).offset + (d.vecSlotAt i f).len = total (((d.vecSlotAt i f).block.parts d i).take f.run.2) := by
  have hb := ((consistent_iff.mp hd).2 i hi).1
  cases f <;> cases hk
  all_goals
    simp [vecSlotAt, VecBlock.parts, Field.run, hb]
    try omega

theorem total_parts (hd : d.Consistent) (hi : i ≤ d.N) {block : VecBlock} (hm : block ≠ .m) :
    total (block.parts d i) = block.len d i := by
  have hb := ((consistent_iff.mp hd).2 i hi).1
  cases block <;> first | contradiction | skip
  all_goals
    simp [VecBlock.parts, VecBlock.len, nuxAt, ncAt, hb]
    try omega

theorem vecSlotAt_inside (hd : d.Consistent) (hi : i ≤ d.N) {f : Field} (hk : f.kind = .vector) :
    (d.vecSlotAt i f).offset + (d.vecSlotAt i f).len ≤ (d.vecSlotAt i f).block.len d i := by
  rw [(vecSlotAt_parts hd hi hk).2, ← total_parts hd hi (by cases f <;> exact nofun)]
  exact total_take_le _ _

/-! ## Entries of a field -/

variable (d i)

/-- Entry `k` of the array of a kind at stage `i` belongs to the field. -/
def Owns (f : Field) (kind : RegionKind) (k : Nat) : Prop :=
  match f.kind with
  | .matrix =>
    let s := d.matSlotAt i f
    let m := (s.block.shape d i).1
    kind = s.block.region ∧ s.Covers (k % m) (k / m)
  | .vector =>
    let s := d.vecSlotAt i f
    kind = s.block.region ∧ s.offset ≤ k ∧ k < s.offset + s.len
  | .index => kind = f.idxBlock.region

/-- Entry `k` of the array of a kind at stage `i` stands in a last row that repeats the field. -/
def Mirrors (f : Field) (kind : RegionKind) (k : Nat) : Prop :=
  ∃ block col0, (d.vecSlotAt i f).augmented = some (block, col0) ∧ kind = block.region ∧
    let m := (block.shape d i).1
    (MatSlot.lastRow block m col0 (d.vecSlotAt i f).len).Covers (k % m) (k / m)

variable {d i}

/-- Fields that do not overlap have runs of parts that do not meet. -/
theorem run_apart {f g : Field} (hf : f.kind = .vector) (hg : g.kind = .vector) (hne : f ≠ g)
    (ho : f.overlaps g = false) (hb : (d.vecSlotAt i f).block = (d.vecSlotAt i g).block) :
    f.run.2 ≤ g.run.1 ∨ g.run.2 ≤ f.run.1 := by
  cases f <;> cases hf
  all_goals
    cases g <;>
      first | cases hg; done | exact absurd rfl hne | cases ho; done | cases hb; done | (left; decide) | (right; decide)

/-- The slots of two matrix fields in one array do not meet. -/
theorem covers_apart {f g : Field} (hf : f.kind = .matrix) (hg : g.kind = .matrix) (hne : f ≠ g)
    (hb : (d.matSlotAt i f).block = (d.matSlotAt i g).block) {r c : Nat} (hc : (d.matSlotAt i f).Covers r c) :
    ¬ (d.matSlotAt i g).Covers r c := by
  intro hc'
  unfold MatSlot.Covers MatSlot.height MatSlot.width at hc hc'
  cases f <;> cases hf
  all_goals
    cases g <;> first | cases hg; done | exact absurd rfl hne | cases hb; done | skip
  all_goals
    simp only [matSlotAt, if_true, Bool.false_eq_true, if_false] at hc hc'
    omega

/-- The last row of an augmented matrix lies behind every field of it. -/
theorem augmented_rows {f g : Field} (hg : g.kind = .matrix) {block : MatBlock} {col0 : Nat}
    (ha : (d.vecSlotAt i f).augmented = some (block, col0)) (hb : (d.matSlotAt i g).block = block) :
    (d.matSlotAt i g).row0 + (d.matSlotAt i g).height ≤ (block.shape d i).1 - 1 := by
  cases f <;> cases ha
  all_goals
    cases g <;> first | cases hg; done | cases hb; done | skip
  all_goals
    simp only [matSlotAt, MatSlot.height, MatBlock.shape, nuxAt, if_true, Bool.false_eq_true, if_false]
    omega

end Dims

/-! ## Arrays of different sorts -/

theorem MatBlock.region_inj {a b : MatBlock} (h : a.region = b.region) : a = b := by
  revert h
  cases a <;> cases b <;> decide

theorem VecBlock.region_inj {v w : VecBlock} (h : v.region = w.region) : v = w := by
  revert h
  cases v <;> cases w <;> decide

theorem MatBlock.region_ne_vec (a : MatBlock) (v : VecBlock) : a.region ≠ v.region := by
  cases a <;> cases v <;> decide

theorem MatBlock.region_ne_idx (a : MatBlock) (b : IdxBlock) : a.region ≠ b.region := by
  cases a <;> cases b <;> decide

theorem VecBlock.region_ne_idx (v : VecBlock) (a : IdxBlock) : v.region ≠ a.region := by
  cases v <;> cases a <;> decide

namespace Dims

variable {d : Dims} {i : Nat} {f g : Field} {kind : RegionKind} {k : Nat}

theorem owns_matrix (hf : f.kind = .matrix) :
    d.Owns i f kind k ↔ kind = (d.matSlotAt i f).block.region ∧ (d.matSlotAt i f).Covers
      (k % ((d.matSlotAt i f).block.shape d i).1) (k / ((d.matSlotAt i f).block.shape d i).1) := by
  unfold Owns
  rw [hf]

/-- The entries of the field's slot are the field's. -/
theorem owns_entry {α : Type} (hf : f.kind = .matrix) {M : Matrix α}
    (hM : M.rows = ((d.matSlotAt i f).block.shape d i).1) {r c : Nat} (hc : (d.matSlotAt i f).Covers r c) :
    d.Owns i f (d.matSlotAt i f).block.region (M.index r c) := by
  have hr : r < M.rows := hM ▸ (hc.lt (matSlotAt_fits hf)).1
  refine (owns_matrix hf).mpr ⟨rfl, ?_⟩
  rwa [← hM, Matrix.mod_index hr, Matrix.div_index hr]

theorem owns_vector (hf : f.kind = .vector) :
    d.Owns i f kind k ↔ kind = (d.vecSlotAt i f).block.region ∧ (d.vecSlotAt i f).offset ≤ k ∧
      k < (d.vecSlotAt i f).offset + (d.vecSlotAt i f).len := by
  unfold Owns
  rw [hf]

theorem owns_index (hf : f.kind = .index) : d.Owns i f kind k ↔ kind = f.idxBlock.region := by
  unfold Owns
  rw [hf]

/-- Two fields that do not overlap share no entry. -/
theorem owns_apart (hd : d.Consistent) (hi : i ≤ d.N) (hne : f ≠ g) (ho : f.overlaps g = false)
    (hf : d.Owns i f kind k) : ¬ d.Owns i g kind k := by
  intro hg
  cases hkf : f.kind <;> cases hkg : g.kind
  case matrix.matrix =>
    obtain ⟨rfl, hcf⟩ := (owns_matrix hkf).mp hf
    obtain ⟨hb, hcg⟩ := (owns_matrix hkg).mp hg
    have hb := MatBlock.region_inj hb
    rw [← hb] at hcg
    exact covers_apart hkf hkg hne hb hcf hcg
  case vector.vector =>
    obtain ⟨rfl, hkf1, hkf2⟩ := (owns_vector hkf).mp hf
    obtain ⟨hb, hkg1, hkg2⟩ := (owns_vector hkg).mp hg
    have hb := VecBlock.region_inj hb
    obtain ⟨hfo, hfl⟩ := vecSlotAt_parts hd hi hkf
    obtain ⟨hgo, hgl⟩ := vecSlotAt_parts hd hi hkg
    rw [← hb] at hgo hgl
    rcases run_apart hkf hkg hne ho hb with h | h
    · have := total_take_mono ((d.vecSlotAt i f).block.parts d i) h
      omega
    · have := total_take_mono ((d.vecSlotAt i f).block.parts d i) h
      omega
  case index.index =>
    have hr := ((owns_index hkf).mp hf).symm.trans ((owns_index hkg).mp hg)
    cases f <;> cases hkf <;> cases g <;> first | cases hkg; done | exact hne rfl | cases hr
  case matrix.vector => exact MatBlock.region_ne_vec _ _ (((owns_matrix hkf).mp hf).1.symm.trans ((owns_vector hkg).mp hg).1)
  case vector.matrix => exact MatBlock.region_ne_vec _ _ (((owns_matrix hkg).mp hg).1.symm.trans ((owns_vector hkf).mp hf).1)
  case matrix.index => exact MatBlock.region_ne_idx _ _ (((owns_matrix hkf).mp hf).1.symm.trans ((owns_index hkg).mp hg))
  case index.matrix => exact MatBlock.region_ne_idx _ _ (((owns_matrix hkg).mp hg).1.symm.trans ((owns_index hkf).mp hf))
  case vector.index => exact VecBlock.region_ne_idx _ _ (((owns_vector hkf).mp hf).1.symm.trans ((owns_index hkg).mp hg))
  case index.vector => exact VecBlock.region_ne_idx _ _ (((owns_vector hkg).mp hg).1.symm.trans ((owns_index hkf).mp hf))

/-- No field has an entry of a last row. -/
theorem mirrors_apart (hf : d.Mirrors i f kind k) : ¬ d.Owns i g kind k := by
  obtain ⟨block, col0, ha, rfl, ⟨hrow, -⟩, -⟩ := hf
  intro hg
  cases hkg : g.kind with
  | matrix =>
    obtain ⟨hb, ⟨-, hr⟩, -⟩ := (owns_matrix hkg).mp hg
    have hb := MatBlock.region_inj hb
    have hle := augmented_rows hkg ha hb.symm
    rw [← hb] at hr
    have hrow : (block.shape d i).1 - 1 ≤ k % (block.shape d i).1 := hrow
    omega
  | vector => exact MatBlock.region_ne_vec _ _ ((owns_vector hkg).mp hg).1
  | index => exact MatBlock.region_ne_idx _ _ ((owns_index hkg).mp hg)

end Dims

end HorizonQp
