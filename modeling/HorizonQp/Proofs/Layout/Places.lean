/-
  HorizonQp.Proofs.Layout.Places — where the arrays of a problem belong.

  The dimensions give every array of every stage its shape (`MatBlock.shape`,
  `VecBlock.len`, `IdxBlock.len`), and with its region a place: the arrays of a kind lie
  one behind the other in the order of the stages (`Layout.offsetOf`), each in whole
  cache lines or exactly as long as it is (`RegionKind.stride`). Here are those places in
  the natural numbers, and the tables of headers that describe them (`idxTable`,
  `matTable`, `vecTable`).

  - `offsetOf_apart`: two arrays of a kind do not meet.
  - `width_dvd_offsetOf`: an array starts at a multiple of its element size.
  - `idxTable_header`, `matTable_header`, `vecTable_header`: the header of an array stands
    where `headerIndex?` says.
-/

import HorizonQp.Layout.Plan
import HorizonQp.Proofs.Memory.Sizes

namespace HorizonQp

open Word (roundUp)

/-! ## Entries of the dimensions -/

theorem eq_map_getD {xs : List Nat} {n : Nat} (h : xs.length = n) : xs = (List.range n).map (xs.getD · 0) := by
  apply List.ext_getElem?
  intro i
  by_cases hi : i < n
  · rw [List.getElem?_map, List.getElem?_range hi, Option.map_some, List.getD_eq_getElem?_getD,
      List.getElem?_eq_getElem (by omega), Option.getD_some]
  · rw [List.getElem?_eq_none (by omega), List.getElem?_eq_none (by simp; omega)]

theorem getElem?_eq_getD {xs : List Nat} {i : Nat} (h : i < xs.length) : xs[i]? = some (xs.getD i 0) := by
  rw [List.getD_eq_getElem?_getD, List.getElem?_eq_getElem h, Option.getD_some]

theorem exists_entry {xs : List Nat} {i : Nat} {p : Nat → Prop} :
    (∃ n, xs[i]? = some n ∧ p n) ↔ i < xs.length ∧ p (xs.getD i 0) := by
  constructor
  · intro h
    rcases h with ⟨n, hn, hp⟩
    rw [List.getD_eq_getElem?_getD, hn]
    exact ⟨(List.getElem?_eq_some_iff.mp hn).1, hp⟩
  · intro h
    exact ⟨_, getElem?_eq_getD h.1, h.2⟩

theorem total_range_succ (f : Nat → Nat) (n : Nat) :
    total ((List.range (n + 1)).map f) = total ((List.range n).map f) + f n := by
  rw [List.range_succ, List.map_append, total_append]
  simp

namespace Dims

variable (d : Dims)

def nxAt (i : Nat) : Nat := d.nx.getD i 0

def nuAt (i : Nat) : Nat := d.nu.getD i 0

def nbAt (i : Nat) : Nat := d.nb.getD i 0

def nbuAt (i : Nat) : Nat := d.nbu.getD i 0

def nbxAt (i : Nat) : Nat := d.nbx.getD i 0

def ngAt (i : Nat) : Nat := d.ng.getD i 0

def nsAt (i : Nat) : Nat := d.ns.getD i 0

/-- Inputs and states at stage `i`. -/
def nuxAt (i : Nat) : Nat := d.nuAt i + d.nxAt i

/-- Inequality rows of stage `i`. -/
def ncAt (i : Nat) : Nat := 2 * (d.nbAt i + d.ngAt i + d.nsAt i)

/-- Every stage has its counts. The arrays that are packed back to back have no entry more. -/
structure Spanned : Prop where
  nx : d.N < d.nx.length
  nu : d.N < d.nu.length
  nb : d.nb.length = d.N + 1
  ng : d.N < d.ng.length
  ns : d.ns.length = d.N + 1

/-- Every array has one entry per stage. -/
structure Shaped : Prop where
  nx : d.nx.length = d.N + 1
  nu : d.nu.length = d.N + 1
  nb : d.nb.length = d.N + 1
  nbu : d.nbu.length = d.N + 1
  nbx : d.nbx.length = d.N + 1
  ng : d.ng.length = d.N + 1
  ns : d.ns.length = d.N + 1

variable {d}

theorem Consistent.shaped (h : d.Consistent) : d.Shaped := by
  obtain ⟨⟨h1, h2, h3, h4, h5, h6, h7⟩, -, -⟩ := h
  exact ⟨h1, h2, h3, h4, h5, h6, h7⟩

theorem Shaped.spanned (h : d.Shaped) : d.Spanned where
  nx := by rw [h.nx]; exact Nat.lt_succ_self _
  nu := by rw [h.nu]; exact Nat.lt_succ_self _
  nb := h.nb
  ng := by rw [h.ng]; exact Nat.lt_succ_self _
  ns := h.ns

namespace Spanned

variable (h : d.Spanned) {i : Nat}
include h

theorem nx_get (hi : i ≤ d.N) : d.nx[i]? = some (d.nxAt i) := getElem?_eq_getD (Nat.lt_of_le_of_lt hi h.nx)

theorem nu_get (hi : i ≤ d.N) : d.nu[i]? = some (d.nuAt i) := getElem?_eq_getD (Nat.lt_of_le_of_lt hi h.nu)

theorem nb_get (hi : i ≤ d.N) : d.nb[i]? = some (d.nbAt i) := getElem?_eq_getD (by rw [h.nb]; omega)

theorem ng_get (hi : i ≤ d.N) : d.ng[i]? = some (d.ngAt i) := getElem?_eq_getD (Nat.lt_of_le_of_lt hi h.ng)

theorem ns_get (hi : i ≤ d.N) : d.ns[i]? = some (d.nsAt i) := getElem?_eq_getD (by rw [h.ns]; omega)

theorem nux_get (hi : i ≤ d.N) (hw : d.nuxAt i < Word.limit) : d.nux? i = some (d.nuxAt i) := by
  rw [nux?, h.nu_get hi, h.nx_get hi]
  exact congrArg some (Word.wrap_of_lt hw)

theorem ne_get (hi : i < d.N) : d.ne? i = some (d.nxAt (i + 1)) := h.nx_get hi

theorem nb_eq : d.nb = (List.range (d.N + 1)).map d.nbAt := eq_map_getD h.nb

theorem ns_eq : d.ns = (List.range (d.N + 1)).map d.nsAt := eq_map_getD h.ns

end Spanned

theorem Shaped.nbu_get (h : d.Shaped) {i : Nat} (hi : i ≤ d.N) : d.nbu[i]? = some (d.nbuAt i) :=
  getElem?_eq_getD (by rw [h.nbu]; omega)

theorem Shaped.nbx_get (h : d.Shaped) {i : Nat} (hi : i ≤ d.N) : d.nbx[i]? = some (d.nbxAt i) :=
  getElem?_eq_getD (by rw [h.nbx]; omega)

/-- No stage has more bounds on inputs or states than inputs or states. -/
theorem splitFault?_eq_none {nx nu nbu nbx : List Nat} {n : Nat} (hnx : n ≤ nx.length) (hnu : n ≤ nu.length)
    (hbu : nbu.length = n) (hbx : nbx.length = n) :
    splitFault? nx nu nbu nbx = none ↔
      ∀ i < n, nbu.getD i 0 ≤ nu.getD i 0 ∧ nbx.getD i 0 ≤ nx.getD i 0 := by
  have hl : ((nu.zip nbu).zip (nx.zip nbx)).length = n := by
    simp only [List.length_zip, hbu, hbx]
    omega
  have hget : ∀ i (hi : i < ((nu.zip nbu).zip (nx.zip nbx)).length),
      ((nu.zip nbu).zip (nx.zip nbx))[i] = ((nu.getD i 0, nbu.getD i 0), (nx.getD i 0, nbx.getD i 0)) := by
    intro i hi
    rw [hl] at hi
    simp only [List.getElem_zip, List.getD_eq_getElem?_getD,
      List.getElem?_eq_getElem (show i < nu.length by omega), List.getElem?_eq_getElem (show i < nbu.length by omega),
      List.getElem?_eq_getElem (show i < nx.length by omega), List.getElem?_eq_getElem (show i < nbx.length by omega),
      Option.getD_some]
  rw [splitFault?, List.findIdx?_eq_none_iff]
  constructor
  · intro h i hi
    have hi' : i < ((nu.zip nbu).zip (nx.zip nbx)).length := by omega
    have := h _ (List.getElem_mem hi')
    rw [hget i hi'] at this
    simp only [Bool.or_eq_false_iff, decide_eq_false_iff_not] at this
    omega
  · intro h p hp
    obtain ⟨i, hi, rfl⟩ := List.getElem_of_mem hp
    rw [hget i hi]
    have := h i (by omega)
    simp only [Bool.or_eq_false_iff, decide_eq_false_iff_not]
    omega

/-- A consistent record, entry by entry. -/
theorem consistent_iff :
    d.Consistent ↔ d.Shaped ∧
      ∀ i ≤ d.N, d.nbAt i = d.nbuAt i + d.nbxAt i ∧ d.nbuAt i ≤ d.nuAt i ∧ d.nbxAt i ≤ d.nxAt i := by
  have hzip : ∀ (s : d.Shaped) i, i ≤ d.N →
      (List.zipWith (· + ·) d.nbu d.nbx)[i]? = some (d.nbuAt i + d.nbxAt i) := by
    intro s i hi
    rw [List.getElem?_zipWith, s.nbu_get hi, s.nbx_get hi]
  constructor
  · intro h
    have s := h.shaped
    refine ⟨s, fun i hi => ?_⟩
    obtain ⟨-, hnb, hsplit⟩ := h
    have h1 := s.spanned.nb_get hi
    rw [hnb, hzip s i hi] at h1
    have h2 := (splitFault?_eq_none (Nat.le_of_eq s.nx.symm) (Nat.le_of_eq s.nu.symm) s.nbu s.nbx).mp hsplit i (by omega)
    exact ⟨(Option.some.inj h1).symm, h2⟩
  · intro h
    rcases h with ⟨s, h⟩
    refine ⟨⟨s.nx, s.nu, s.nb, s.nbu, s.nbx, s.ng, s.ns⟩, ?_, ?_⟩
    · apply List.ext_getElem?
      intro i
      by_cases hi : i ≤ d.N
      · rw [hzip s i hi, s.spanned.nb_get hi, (h i hi).1]
      · rw [List.getElem?_eq_none (by rw [s.nb]; omega), List.getElem?_eq_none (by simp [s.nbu, s.nbx]; omega)]
    · exact (splitFault?_eq_none (Nat.le_of_eq s.nx.symm) (Nat.le_of_eq s.nu.symm) s.nbu s.nbx).mpr fun i hi => (h i (by omega)).2

end Dims

/-! ## Shapes -/

/-- The rows and columns of a matrix of stage `i`. -/
def MatBlock.shape (d : Dims) (i : Nat) : MatBlock → Nat × Nat
  | .BAbt => (d.nuxAt i + 1, d.nxAt (i + 1))
  | .RSQrq => (d.nuxAt i + 1, d.nuxAt i)
  | .DCt => (d.nuxAt i, d.ngAt i)

/-- The length of a vector of stage `i`. -/
def VecBlock.len (d : Dims) (i : Nat) : VecBlock → Nat
  | .b => d.nxAt (i + 1)
  | .rqz => d.nuxAt i + 2 * d.nsAt i
  | .d | .m => d.ncAt i
  | .Z => 2 * d.nsAt i

/-- The length of an index array of stage `i`. -/
def IdxBlock.len (d : Dims) (i : Nat) : IdxBlock → Nat
  | .idxb => d.nbAt i
  | .idxs => d.nsAt i

namespace RegionKind

/-- How many arrays of the kind there are over a horizon `N`. -/
def count (N : Nat) : RegionKind → Nat
  | .idxHeaders | .matHeaders | .vecHeaders => 0
  | .BAbt | .b => N
  | _ => N + 1

/-- How many entries the array of the kind has at stage `i`. -/
def entries (d : Dims) (i : Nat) : RegionKind → Nat
  | .idxHeaders | .matHeaders | .vecHeaders => 0
  | .idxb => IdxBlock.len d i .idxb
  | .idxs => IdxBlock.len d i .idxs
  | .BAbt => (MatBlock.shape d i .BAbt).1 * (MatBlock.shape d i .BAbt).2
  | .RSQrq => (MatBlock.shape d i .RSQrq).1 * (MatBlock.shape d i .RSQrq).2
  | .DCt => (MatBlock.shape d i .DCt).1 * (MatBlock.shape d i .DCt).2
  | .Z => VecBlock.len d i .Z
  | .rqz => VecBlock.len d i .rqz
  | .b => VecBlock.len d i .b
  | .d => VecBlock.len d i .d
  | .m => VecBlock.len d i .m

/-- The bytes of an entry, for numbers of `size` bytes. -/
def entryWidth (size : Nat) (kind : RegionKind) : Nat := if kind.isFloat then size else Word.width

/-- Whether every array of the kind starts on a cache line of its own. -/
def isPadded : RegionKind → Bool
  | .BAbt | .RSQrq | .DCt | .Z => true
  | _ => false

/-- The bytes of the entries of the array at stage `i`. -/
def bytes (size : Nat) (d : Dims) (kind : RegionKind) (i : Nat) : Nat := kind.entries d i * kind.entryWidth size

/-- The bytes set aside for the array at stage `i`. -/
def stride (size : Nat) (d : Dims) (kind : RegionKind) (i : Nat) : Nat :=
  if kind.isPadded then roundUp (kind.bytes size d i) else kind.bytes size d i

theorem bytes_le_stride (size : Nat) (d : Dims) (kind : RegionKind) (i : Nat) :
    kind.bytes size d i ≤ kind.stride size d i := by
  unfold stride
  split
  · exact Word.le_roundUp _
  · exact Nat.le_refl _

theorem entryWidth_dvd {size : Nat} (hs : size ∣ 8) (kind : RegionKind) : kind.entryWidth size ∣ 8 := by
  unfold entryWidth
  split
  · exact hs
  · exact Nat.dvd_refl 8

theorem entryWidth_dvd_stride {size : Nat} (hs : size ∣ 8) (d : Dims) (kind : RegionKind) (i : Nat) :
    kind.entryWidth size ∣ kind.stride size d i := by
  unfold stride
  split
  · exact Nat.dvd_trans (Nat.dvd_trans (entryWidth_dvd hs kind) (by decide)) (Word.dvd_roundUp _)
  · exact Nat.dvd_mul_left _ _

end RegionKind

theorem MatBlock.isFloat_region (block : MatBlock) : block.region.isFloat = true := by cases block <;> rfl

theorem VecBlock.isFloat_region (block : VecBlock) : block.region.isFloat = true := by cases block <;> rfl

theorem IdxBlock.isFloat_region (block : IdxBlock) : block.region.isFloat = false := by cases block <;> rfl

theorem MatBlock.entries_region (d : Dims) (i : Nat) (block : MatBlock) :
    block.region.entries d i = (block.shape d i).1 * (block.shape d i).2 := by cases block <;> rfl

theorem VecBlock.entries_region (d : Dims) (i : Nat) (block : VecBlock) :
    block.region.entries d i = block.len d i := by cases block <;> rfl

theorem IdxBlock.entries_region (d : Dims) (i : Nat) (block : IdxBlock) :
    block.region.entries d i = block.len d i := by cases block <;> rfl

/-! ## Stages that have an array -/

/-- A table entry of one of `count` stages. -/
theorem entry_eq_some {first count i k : Nat} :
    (if i < count then some (first + i) else none) = some k ↔ i < count ∧ first + i = k := by
  split <;> simp [*]

theorem MatBlock.headers_count (block : MatBlock) (N : Nat) : (block.headers N).2 = block.region.count N := by
  cases block <;> rfl

theorem MatBlock.headerIndex?_eq_some {block : MatBlock} {N i k : Nat} :
    block.headerIndex? N i = some k ↔ i < block.region.count N ∧ (block.headers N).1 + i = k := by
  rw [← headers_count]
  exact entry_eq_some

theorem VecBlock.headers_count (block : VecBlock) (N : Nat) : (block.headers N).2 = block.region.count N := by
  cases block <;> rfl

theorem VecBlock.headerIndex?_eq_some {block : VecBlock} {N i k : Nat} :
    block.headerIndex? N i = some k ↔ i < block.region.count N ∧ (block.headers N).1 + i = k := by
  rw [← headers_count]
  exact entry_eq_some

theorem IdxBlock.headers_count (block : IdxBlock) (N : Nat) : (block.headers N).2 = block.region.count N := by
  cases block <;> rfl

theorem IdxBlock.headerIndex?_eq_some {block : IdxBlock} {N i k : Nat} :
    block.headerIndex? N i = some k ↔ i < block.region.count N ∧ (block.headers N).1 + i = k := by
  rw [← headers_count]
  exact entry_eq_some

/-! ## Places -/

namespace Layout

variable (l : Layout) (size : Nat) (d : Dims)

/-- Where the array of a kind at stage `i` starts. -/
def offsetOf (kind : RegionKind) (i : Nat) : Nat :=
  (l.region kind).offset + total ((List.range i).map (kind.stride size d))

@[simp] theorem offsetOf_zero (kind : RegionKind) : l.offsetOf size d kind 0 = (l.region kind).offset := by
  simp [offsetOf]

theorem offsetOf_succ (kind : RegionKind) (i : Nat) :
    l.offsetOf size d kind (i + 1) = l.offsetOf size d kind i + kind.stride size d i := by
  unfold offsetOf
  rw [total_range_succ, Nat.add_assoc]

theorem offsetOf_mono (kind : RegionKind) {i j : Nat} (h : i ≤ j) :
    l.offsetOf size d kind i ≤ l.offsetOf size d kind j := by
  induction j with
  | zero =>
    cases Nat.le_zero.mp h
    exact Nat.le_refl _
  | succ j ih =>
    rcases Nat.lt_or_eq_of_le h with h | rfl
    · have := ih (by omega)
      rw [offsetOf_succ]
      omega
    · exact Nat.le_refl _

/-- Two arrays of a kind do not meet. -/
theorem offsetOf_apart (kind : RegionKind) {i j : Nat} (h : i < j) :
    l.offsetOf size d kind i + kind.bytes size d i ≤ l.offsetOf size d kind j := by
  have h1 := offsetOf_mono l size d kind (show i + 1 ≤ j from h)
  have h2 := kind.bytes_le_stride size d i
  rw [offsetOf_succ] at h1
  omega

theorem width_dvd_offsetOf {size : Nat} (hs : size ∣ 8) (kind : RegionKind)
    (ho : kind.entryWidth size ∣ (l.region kind).offset) (i : Nat) :
    kind.entryWidth size ∣ l.offsetOf size d kind i := by
  induction i with
  | zero => simpa using ho
  | succ i ih =>
    rw [offsetOf_succ]
    exact Nat.dvd_add ih (kind.entryWidth_dvd_stride hs d i)

/-! ## Tables of headers -/

def idxHeader (block : IdxBlock) (i : Nat) : IdxHeader := ⟨l.offsetOf size d block.region i, block.len d i⟩

def matHeader (block : MatBlock) (i : Nat) : MatHeader :=
  ⟨(block.shape d i).1, (block.shape d i).2, l.offsetOf size d block.region i, block.region.stride size d i⟩

def vecHeader (block : VecBlock) (i : Nat) : VecHeader :=
  ⟨block.len d i, l.offsetOf size d block.region i, block.region.stride size d i⟩

/-- The headers of a kind, stage by stage. -/
def rowOf {H : Type} (header : Nat → H) (count : Nat) : List H := (List.range count).map header

def idxTable : List IdxHeader :=
  rowOf (l.idxHeader size d .idxb) (d.N + 1) ++ rowOf (l.idxHeader size d .idxs) (d.N + 1)

def matTable : List MatHeader :=
  rowOf (l.matHeader size d .BAbt) d.N ++ rowOf (l.matHeader size d .RSQrq) (d.N + 1) ++
    rowOf (l.matHeader size d .DCt) (d.N + 1)

def vecTable : List VecHeader :=
  rowOf (l.vecHeader size d .b) d.N ++ rowOf (l.vecHeader size d .rqz) (d.N + 1) ++
    rowOf (l.vecHeader size d .d) (d.N + 1) ++ rowOf (l.vecHeader size d .m) (d.N + 1) ++
    rowOf (l.vecHeader size d .Z) (d.N + 1)

@[simp] theorem length_rowOf {H : Type} (header : Nat → H) (count : Nat) : (rowOf header count).length = count := by
  simp [rowOf]

theorem getElem?_rowOf {H : Type} (header : Nat → H) {count i : Nat} (h : i < count) :
    (rowOf header count)[i]? = some (header i) := by
  rw [rowOf, List.getElem?_map, List.getElem?_range h, Option.map_some]

@[simp] theorem length_idxTable : (l.idxTable size d).length = 2 * (d.N + 1) := by
  simp [idxTable]; omega

@[simp] theorem length_matTable : (l.matTable size d).length = d.N + 2 * (d.N + 1) := by
  simp [matTable]; omega

@[simp] theorem length_vecTable : (l.vecTable size d).length = d.N + 4 * (d.N + 1) := by
  simp [vecTable]; omega

/-- The entry of a row that stands `k` entries into what follows `before`. -/
theorem getElem?_row {H : Type} {before : List H} (after : List H) (header : Nat → H) {count n i : Nat}
    (hn : before.length = n) (hi : i < count) : (before ++ rowOf header count ++ after)[n + i]? = some (header i) := by
  rw [List.append_assoc, List.getElem?_append_right (by omega), show n + i - before.length = i by omega,
    List.getElem?_append_left (by simpa using hi), getElem?_rowOf header hi]

theorem idxTable_header {block : IdxBlock} {i k : Nat} (h : block.headerIndex? d.N i = some k) :
    (l.idxTable size d)[k]? = some (l.idxHeader size d block i) := by
  obtain ⟨hi, rfl⟩ := IdxBlock.headerIndex?_eq_some.mp h
  cases block with
  | idxb =>
    have hi : i < d.N + 1 := hi
    simpa [idxTable, IdxBlock.headers] using
      @getElem?_row _ [] (rowOf (l.idxHeader size d .idxs) (d.N + 1)) (l.idxHeader size d .idxb) _ _ _ rfl hi
  | idxs =>
    have hi : i < d.N + 1 := hi
    simpa [idxTable, IdxBlock.headers] using
      getElem?_row [] (l.idxHeader size d .idxs) (length_rowOf (l.idxHeader size d .idxb) (d.N + 1)) hi

theorem matTable_header {block : MatBlock} {i k : Nat} (h : block.headerIndex? d.N i = some k) :
    (l.matTable size d)[k]? = some (l.matHeader size d block i) := by
  obtain ⟨hi, rfl⟩ := MatBlock.headerIndex?_eq_some.mp h
  let row (block : MatBlock) := rowOf (l.matHeader size d block) (block.region.count d.N)
  have hlen : ∀ block, (row block).length = block.region.count d.N := fun _ => length_rowOf _ _
  have ht : l.matTable size d = row .BAbt ++ row .RSQrq ++ row .DCt := rfl
  cases block with
  | BAbt =>
    have := @getElem?_row _ [] (row .RSQrq ++ row .DCt) (l.matHeader size d .BAbt) _ _ _ rfl hi
    simpa [ht, MatBlock.headers] using this
  | RSQrq =>
    rw [ht]
    exact getElem?_row _ (l.matHeader size d .RSQrq) (hlen .BAbt) hi
  | DCt =>
    have hb : (row .BAbt ++ row .RSQrq).length = 2 * d.N + 1 := by
      rw [List.length_append, hlen, hlen]
      show d.N + (d.N + 1) = _
      omega
    have := getElem?_row [] (l.matHeader size d .DCt) hb hi
    rwa [List.append_nil] at this

theorem vecTable_header {block : VecBlock} {i k : Nat} (h : block.headerIndex? d.N i = some k) :
    (l.vecTable size d)[k]? = some (l.vecHeader size d block i) := by
  obtain ⟨hi, rfl⟩ := VecBlock.headerIndex?_eq_some.mp h
  let row (block : VecBlock) := rowOf (l.vecHeader size d block) (block.region.count d.N)
  have hlen : ∀ block, (row block).length = block.region.count d.N := fun _ => length_rowOf _ _
  have ht : l.vecTable size d = row .b ++ row .rqz ++ row .d ++ row .m ++ row .Z := rfl
  cases block with
  | b =>
    have := @getElem?_row _ [] (row .rqz ++ row .d ++ row .m ++ row .Z) (l.vecHeader size d .b) _ _ _ rfl hi
    simpa [ht, VecBlock.headers] using this
  | rqz =>
    have hb : (row .b).length = d.N := hlen .b
    have := getElem?_row (row .d ++ row .m ++ row .Z) (l.vecHeader size d .rqz) hb hi
    simpa [ht, VecBlock.headers] using this
  | d =>
    have hb : (row .b ++ row .rqz).length = 2 * d.N + 1 := by
      rw [List.length_append, hlen, hlen]
      show d.N + (d.N + 1) = _
      omega
    have := getElem?_row (row .m ++ row .Z) (l.vecHeader size d .d) hb hi
    simpa [ht, VecBlock.headers] using this
  | m =>
    have hb : (row .b ++ row .rqz ++ row .d).length = 3 * d.N + 2 := by
      rw [List.length_append, List.length_append, hlen, hlen, hlen]
      show d.N + (d.N + 1) + (d.N + 1) = _
      omega
    rw [ht]
    exact getElem?_row _ (l.vecHeader size d .m) hb hi
  | Z =>
    have hb : (row .b ++ row .rqz ++ row .d ++ row .m).length = 4 * d.N + 3 := by
      rw [List.length_append, List.length_append, List.length_append, hlen, hlen, hlen, hlen]
      show d.N + (d.N + 1) + (d.N + 1) + (d.N + 1) = _
      omega
    have := getElem?_row [] (l.vecHeader size d .Z) hb hi
    rwa [List.append_nil] at this

end Layout

end HorizonQp
