/-
  HorizonQp.Word — sizes as the machine holds them, and their bytes.

  Sizes, offsets and counts are natural numbers; a machine word holds those below
  `limit`. Sizing uses two kinds of arithmetic. Checked arithmetic (`add?`, `mul?`,
  `sum?`) has no answer when the exact result does not fit a word. Unchecked arithmetic
  is exact followed by `wrap`, the remainder modulo `limit`: so are computed the counts
  that dimensions add up to, the sizes of new arrays and the offsets of parts, also where
  nobody has looked whether a word holds them.

  Two things are written plainly. What counts or points at entries that are there fits a
  word anyhow. And the end of a run is compared exactly with the length of what it is cut
  from: an end past a word, which wraps to before its start, is refused just the same.

  `alignUp n align` adds `align - 1` and clears the bits of `align - 1`, on words. For a
  power of two it is the next multiple.

  A word is stored as eight bytes, least significant first (`encode`, `decode`), and
  reading a stored word gives it back: `decode_encode`, `encode_decode`.
-/

namespace HorizonQp.Word

/-- The number of values a word can hold: one more than 64 set bits. -/
def limit : Nat := 0x10000000000000000

/-- The largest size a word can hold. -/
def greatest : Nat := 0xffffffffffffffff

/-- The most bytes that one allocation can have. -/
def maxBytes : Nat := 0x7fffffffffffffff

/-- The number of bytes of a stored word. -/
def width : Nat := 8

/-- Payloads of numbers begin at multiples of this many bytes. -/
def cacheLine : Nat := 64

/-- Whether `count` entries of `size` bytes fit one allocation. -/
def allocates (size count : Nat) : Bool := count * size ≤ maxBytes

def wrap (n : Nat) : Nat := n % limit

/-! ## Checked arithmetic -/

def add? (a b : Nat) : Option Nat := if a + b < limit then some (a + b) else none

def mul? (a b : Nat) : Option Nat := if a * b < limit then some (a * b) else none

def sum? (ns : List Nat) : Option Nat := ns.foldlM add? 0

/-! ## Alignment -/

def alignUp (n align : Nat) : Nat :=
  ((n.toUInt64 + align.toUInt64 - 1) &&& ~~~(align.toUInt64 - 1)).toNat

/-- The bytes of an `m × n` matrix of numbers of `size` bytes, in whole cache lines. -/
def matrixBytes (size m n : Nat) : Nat := alignUp (wrap (m * n * size)) cacheLine

/-- The bytes of a vector of `n` numbers of `size` bytes, in whole cache lines. -/
def vectorBytes (size n : Nat) : Nat := alignUp (wrap (n * size)) cacheLine

/-- `matrixBytes`, with no answer when a step does not fit a word. -/
def matrixBytes? (size m n : Nat) : Option Nat := do
  let bytes ← mul? (← mul? m n) size
  let _ ← add? bytes (cacheLine - 1)
  pure (alignUp bytes cacheLine)

/-- `vectorBytes`, with no answer when a step does not fit a word. -/
def vectorBytes? (size n : Nat) : Option Nat := matrixBytes? size n 1

/-! ## Bytes -/

/-- The `count` low bytes of `n`, least significant first. -/
def lowBytes : Nat → Nat → List UInt8
  | 0, _ => []
  | count + 1, n => UInt8.ofNat n :: lowBytes count (n / 256)

/-- The number with the given bytes, least significant first. -/
def ofBytes : List UInt8 → Nat
  | [] => 0
  | b :: bs => b.toNat + 256 * ofBytes bs

def encode (n : Nat) : List UInt8 := lowBytes width n

def decode (bs : List UInt8) : Nat := ofBytes bs

theorem length_lowBytes (count n : Nat) : (lowBytes count n).length = count := by
  induction count generalizing n with
  | zero => rfl
  | succ count ih => simp [lowBytes, ih]

theorem ofBytes_lowBytes {count n : Nat} (h : n < 1 <<< (8 * count)) : ofBytes (lowBytes count n) = n := by
  induction count generalizing n with
  | zero => simp at h; simp [lowBytes, ofBytes, h]
  | succ count ih =>
    have hq : n / 256 < 1 <<< (8 * count) := by
      rw [Nat.div_lt_iff_lt_mul (by decide)]
      simpa [Nat.shiftLeft_eq, Nat.mul_add, Nat.pow_add] using h
    simp only [lowBytes, ofBytes, ih hq, UInt8.toNat_ofNat']
    omega

theorem lowBytes_ofBytes (bs : List UInt8) : lowBytes bs.length (ofBytes bs) = bs := by
  induction bs with
  | nil => rfl
  | cons b bs ih =>
    have hb : b.toNat < 256 := b.toNat_lt
    have hd : (b.toNat + 256 * ofBytes bs) / 256 = ofBytes bs := by omega
    have hm : UInt8.ofNat (b.toNat + 256 * ofBytes bs) = b := by
      apply UInt8.toNat_inj.1
      rw [UInt8.toNat_ofNat']
      omega
    simp only [List.length_cons, lowBytes, ofBytes, hd, hm, ih]

theorem ofBytes_lt (bs : List UInt8) : ofBytes bs < 1 <<< (8 * bs.length) := by
  induction bs with
  | nil => simp [ofBytes]
  | cons b bs ih =>
    have hb : b.toNat < 256 := b.toNat_lt
    simp only [Nat.shiftLeft_eq, Nat.one_mul] at ih ⊢
    simp only [ofBytes, List.length_cons, Nat.mul_add, Nat.pow_add]
    omega

theorem decode_encode {n : Nat} (h : n < limit) : decode (encode n) = n :=
  ofBytes_lowBytes (by simpa [limit, width] using h)

theorem encode_decode {bs : List UInt8} (h : bs.length = width) : encode (decode bs) = bs := by
  unfold encode decode
  rw [← h]
  exact lowBytes_ofBytes bs

end HorizonQp.Word
