/-
  HorizonQp.Layout.Basic — how a problem lies in its block.

  The block is cut into thirteen regions, in the order of `RegionKind.all`: three tables
  of headers, the index arrays, then, from a cache line on, the numbers. A header says
  where one array lies and how large it is; all offsets are in bytes from the aligned
  base of the block. The tables hold

  - index arrays: `idxb` of every stage, then `idxs` of every stage;
  - matrices: `BAbt` of every step, then `RSQrq` and `DCt` of every stage;
  - vectors: `b` of every step, then `rqz`, `d`, `m` and `Z` of every stage.

  `headerIndex?` gives the place of an array's header in its table. `used` bytes are
  covered, and `memsize` leaves room for the base to be aligned.
-/

import HorizonQp.Word

namespace HorizonQp

inductive RegionKind where
  | idxHeaders | matHeaders | vecHeaders
  | idxb | idxs
  | BAbt | RSQrq | DCt | Z | rqz | b | d | m
  deriving DecidableEq, Repr

namespace RegionKind

/-- The regions in the order of their placement. -/
def all : List RegionKind :=
  [.idxHeaders, .matHeaders, .vecHeaders, .idxb, .idxs, .BAbt, .RSQrq, .DCt, .Z, .rqz, .b, .d, .m]

def name : RegionKind → String
  | .idxHeaders => "IdxHeaders" | .matHeaders => "MatHeaders" | .vecHeaders => "VecHeaders"
  | .idxb => "Idxb" | .idxs => "Idxs"
  | .BAbt => "BAbt" | .RSQrq => "RSQrq" | .DCt => "DCt" | .Z => "Z"
  | .rqz => "Rqz" | .b => "B" | .d => "D" | .m => "M"

/-- Whether the region holds numbers of the problem. -/
def isFloat : RegionKind → Bool
  | .idxHeaders | .matHeaders | .vecHeaders | .idxb | .idxs => false
  | _ => true

end RegionKind

/-- A run of bytes. -/
structure Region where
  kind : RegionKind
  offset : Nat
  len : Nat
  deriving DecidableEq, Repr

def Region.finish (r : Region) : Nat := r.offset + r.len

/-- Where an index array lies. -/
structure IdxHeader where
  offset : Nat
  len : Nat
  deriving DecidableEq, Repr

/-- Where the entries of a matrix lie, column by column, and the bytes set aside for them. -/
structure MatHeader where
  rows : Nat
  cols : Nat
  offset : Nat
  memsize : Nat
  deriving DecidableEq, Repr

/-- Where a vector lies, and the bytes set aside for it. -/
structure VecHeader where
  len : Nat
  offset : Nat
  memsize : Nat
  deriving DecidableEq, Repr

/-! ## Headers as words -/

namespace IdxHeader

def words (h : IdxHeader) : List Nat := [h.offset, h.len]

def ofWords? : List Nat → Option IdxHeader
  | [offset, len] => some ⟨offset, len⟩
  | _ => none

def width : Nat := 2 * Word.width

end IdxHeader

namespace MatHeader

def words (h : MatHeader) : List Nat := [h.rows, h.cols, h.offset, h.memsize]

def ofWords? : List Nat → Option MatHeader
  | [rows, cols, offset, memsize] => some ⟨rows, cols, offset, memsize⟩
  | _ => none

def width : Nat := 4 * Word.width

end MatHeader

namespace VecHeader

def words (h : VecHeader) : List Nat := [h.len, h.offset, h.memsize]

def ofWords? : List Nat → Option VecHeader
  | [len, offset, memsize] => some ⟨len, offset, memsize⟩
  | _ => none

def width : Nat := 3 * Word.width

end VecHeader

/-! ## Arrays of a stage -/

/-- The matrices: `[B'; A'; b']`, `[R, ·; S', Q; r', q']` and `[D'; C']`. -/
inductive MatBlock where
  | BAbt
  | RSQrq
  | DCt
  deriving DecidableEq, Repr

/-- The vectors: `b`, `[r; q; zl; zu]`, `[lb; lg; -ub; -ug; ls; us]`, offsets `m` of the
    same shape, and `[Zl; Zu]`. -/
inductive VecBlock where
  | b
  | rqz
  | d
  | m
  | Z
  deriving DecidableEq, Repr

inductive IdxBlock where
  | idxb
  | idxs
  deriving DecidableEq, Repr

namespace MatBlock

def region : MatBlock → RegionKind
  | .BAbt => .BAbt
  | .RSQrq => .RSQrq
  | .DCt => .DCt

/-- The first header of these matrices over a horizon `N`, and how many there are. -/
def headers (N : Nat) : MatBlock → Nat × Nat
  | .BAbt => (0, N)
  | .RSQrq => (N, N + 1)
  | .DCt => (2 * N + 1, N + 1)

def headerIndex? (block : MatBlock) (N stage : Nat) : Option Nat :=
  let (first, count) := block.headers N
  if stage < count then some (first + stage) else none

end MatBlock

namespace VecBlock

def region : VecBlock → RegionKind
  | .b => .b
  | .rqz => .rqz
  | .d => .d
  | .m => .m
  | .Z => .Z

/-- The first header of these vectors over a horizon `N`, and how many there are. -/
def headers (N : Nat) : VecBlock → Nat × Nat
  | .b => (0, N)
  | .rqz => (N, N + 1)
  | .d => (2 * N + 1, N + 1)
  | .m => (3 * N + 2, N + 1)
  | .Z => (4 * N + 3, N + 1)

def headerIndex? (block : VecBlock) (N stage : Nat) : Option Nat :=
  let (first, count) := block.headers N
  if stage < count then some (first + stage) else none

end VecBlock

namespace IdxBlock

def region : IdxBlock → RegionKind
  | .idxb => .idxb
  | .idxs => .idxs

/-- The first header of these arrays over a horizon `N`, and how many there are. -/
def headers (N : Nat) : IdxBlock → Nat × Nat
  | .idxb => (0, N + 1)
  | .idxs => (N + 1, N + 1)

def headerIndex? (block : IdxBlock) (N stage : Nat) : Option Nat :=
  let (first, count) := block.headers N
  if stage < count then some (first + stage) else none

end IdxBlock

/-! ## The plan -/

/-- Every region and every header of a block. -/
structure Layout where
  regions : List Region
  idxHeaders : List IdxHeader
  matHeaders : List MatHeader
  vecHeaders : List VecHeader
  used : Nat
  memsize : Nat
  deriving DecidableEq, Repr

namespace Layout

def region (l : Layout) (kind : RegionKind) : Region :=
  (l.regions.find? (·.kind == kind)).getD ⟨kind, 0, 0⟩

/-- The bytes from `fst` up to `snd` hold the numbers of the problem. -/
def floatSpan (l : Layout) : Nat × Nat := ((l.region .BAbt).offset, l.used)

end Layout

end HorizonQp
