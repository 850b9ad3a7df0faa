/-
  HorizonQp.Binary.Numbers — the two kinds of numbers a problem is stored in.

  `Double` and `Single` are bit patterns. Sums, products and quotients are those of the
  machine, each rounded once. Everything else is read off the pattern: a change of sign
  flips the sign bit of any pattern, so that doing it twice gives the pattern back
  (`Double.neg_neg`, `Single.neg_neg`) and a value that is no number keeps its bits in
  memory; comparisons go by `Format.place`; numbers from outside enter by
  `Format.nearest`.
-/

import HorizonQp.Word
import HorizonQp.Scalar
import HorizonQp.Binary.Format

namespace HorizonQp.Binary

/-- A number of 64 bits. -/
structure Double where
  bits : UInt64
  deriving DecidableEq, Repr

/-- A number of 32 bits. -/
structure Single where
  bits : UInt32
  deriving DecidableEq, Repr

/-- Numbers that are bit patterns of a format. -/
class Encoded (α : Type) where
  format : Format
  toBits : α → Nat
  ofBits : Nat → α

namespace Encoded

variable {α β : Type} [Encoded α] [Encoded β]

def datum (x : α) : Datum := (format α).datum (toBits x)

/-- The number nearest to the integer `n`. -/
def ofNat (n : Nat) : α := ofBits ((format α).nearest false (n, 1))

/-- The number nearest to the decimal `± digits · 10 ^ scale`. -/
def ofDecimal (negative : Bool) (digits : Nat) (scale : Int) : α :=
  ofBits ((format α).ofDecimal negative digits scale)

/-- The number of another format nearest to `x`. -/
def convert (x : α) : β := ofBits ((format β).ofDatum (datum x))

end Encoded

/-! ## Doubles -/

namespace Double

def toFloat (x : Double) : Float := Float.ofBits x.bits

def ofFloat (x : Float) : Double := ⟨x.toBits⟩

instance : Encoded Double where
  format := double
  toBits x := x.bits.toNat
  ofBits n := ⟨n.toUInt64⟩

instance : Scalar Double where
  zero := ⟨0⟩
  one := ⟨0x3ff0000000000000⟩
  add x y := ofFloat (x.toFloat + y.toFloat)
  sub x y := ofFloat (x.toFloat - y.toFloat)
  mul x y := ofFloat (x.toFloat * y.toFloat)
  div x y := ofFloat (x.toFloat / y.toFloat)
  neg x := ⟨x.bits ^^^ 0x8000000000000000⟩
  natCast := Encoded.ofNat
  isZero x := double.isZero x.bits.toNat

instance : FloatingPoint Double where
  nan := ⟨0x7ff8000000000000⟩
  magnitude x := ⟨x.bits &&& 0x7fffffffffffffff⟩
  isNaN x := double.isNaN x.bits.toNat
  isFinite x := double.isFinite x.bits.toNat
  lt x y := double.lt x.bits.toNat y.bits.toNat
  le x y := double.le x.bits.toNat y.bits.toNat

instance : Stored Double where
  width := 8
  encode x := Word.lowBytes 8 x.bits.toNat
  decode bs := ⟨(Word.ofBytes bs).toUInt64⟩

theorem neg_neg (x : Double) : - -x = x := by
  change Double.mk (x.bits ^^^ _ ^^^ _) = x
  rw [UInt64.xor_assoc, UInt64.xor_self, UInt64.xor_zero]

end Double

/-! ## Singles -/

namespace Single

def toFloat (x : Single) : Float32 := Float32.ofBits x.bits

def ofFloat (x : Float32) : Single := ⟨x.toBits⟩

instance : Encoded Single where
  format := single
  toBits x := x.bits.toNat
  ofBits n := ⟨n.toUInt32⟩

instance : Scalar Single where
  zero := ⟨0⟩
  one := ⟨0x3f800000⟩
  add x y := ofFloat (x.toFloat + y.toFloat)
  sub x y := ofFloat (x.toFloat - y.toFloat)
  mul x y := ofFloat (x.toFloat * y.toFloat)
  div x y := ofFloat (x.toFloat / y.toFloat)
  neg x := ⟨x.bits ^^^ 0x80000000⟩
  natCast := Encoded.ofNat
  isZero x := single.isZero x.bits.toNat

instance : FloatingPoint Single where
  nan := ⟨0x7fc00000⟩
  magnitude x := ⟨x.bits &&& 0x7fffffff⟩
  isNaN x := single.isNaN x.bits.toNat
  isFinite x := single.isFinite x.bits.toNat
  lt x y := single.lt x.bits.toNat y.bits.toNat
  le x y := single.le x.bits.toNat y.bits.toNat

instance : Stored Single where
  width := 4
  encode x := Word.lowBytes 4 x.bits.toNat
  decode bs := ⟨(Word.ofBytes bs).toUInt32⟩

theorem neg_neg (x : Single) : - -x = x := by
  change Single.mk (x.bits ^^^ _ ^^^ _) = x
  rw [UInt32.xor_assoc, UInt32.xor_self, UInt32.xor_zero]

end Single

/-! ## Storing loses nothing -/

theorem toUInt64_toNat (n : UInt64) : n.toNat.toUInt64 = n := by simp

theorem toUInt32_toNat (n : UInt32) : n.toNat.toUInt32 = n := by simp

instance : LawfulStored Double where
  width_dvd := ⟨1, rfl⟩
  length_encode x := Word.length_lowBytes 8 _
  decode_encode x := by
    have h : x.bits.toNat < 1 <<< (8 * 8) := x.bits.toNat_lt
    simp only [Stored.decode, Stored.encode, Word.ofBytes_lowBytes h, toUInt64_toNat]
  encode_decode bs h := by
    have hlt := Word.ofBytes_lt bs
    rw [h] at hlt
    have hn : (Word.ofBytes bs).toUInt64.toNat = Word.ofBytes bs := by
      simp only [Nat.toUInt64_eq, UInt64.toNat_ofNat']
      exact Nat.mod_eq_of_lt hlt
    simp only [Stored.decode, Stored.encode, hn]
    rw [show (8 : Nat) = bs.length from h.symm]
    exact Word.lowBytes_ofBytes bs
  encode_zero := rfl

instance : LawfulStored Single where
  width_dvd := ⟨2, rfl⟩
  length_encode x := Word.length_lowBytes 4 _
  decode_encode x := by
    have h : x.bits.toNat < 1 <<< (8 * 4) := x.bits.toNat_lt
    simp only [Stored.decode, Stored.encode, Word.ofBytes_lowBytes h, toUInt32_toNat]
  encode_decode bs h := by
    have hlt := Word.ofBytes_lt bs
    rw [h] at hlt
    have hn : (Word.ofBytes bs).toUInt32.toNat = Word.ofBytes bs := by
      simp only [Nat.toUInt32_eq, UInt32.toNat_ofNat']
      exact Nat.mod_eq_of_lt hlt
    simp only [Stored.decode, Stored.encode, hn]
    rw [show (4 : Nat) = bs.length from h.symm]
    exact Word.lowBytes_ofBytes bs
  encode_zero := rfl

end HorizonQp.Binary
