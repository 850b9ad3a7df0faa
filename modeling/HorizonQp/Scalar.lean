/-
  HorizonQp.Scalar — the numbers a problem is made of.

  The kernels are written once, over any type with the operations of `Scalar`, and
  assume no law about them: they say which operation is applied to what, in which order.
  `FloatingPoint` adds the operations that measure a result (size, comparison, the
  values that are no numbers). `Stored` says how a number lies in memory, and
  `LawfulStored` that storing loses nothing.
-/

namespace HorizonQp

/-- The arithmetic of the kernels. `isZero` compares with zero as the arithmetic does. -/
class Scalar (α : Type) extends Zero α, One α, Add α, Sub α, Mul α, Div α, Neg α, NatCast α where
  isZero : α → Bool

/-- Arithmetic with values that are no numbers. A comparison with such a value is false. -/
class FloatingPoint (α : Type) extends Scalar α where
  nan : α
  magnitude : α → α
  isNaN : α → Bool
  isFinite : α → Bool
  lt : α → α → Bool
  le : α → α → Bool

namespace FloatingPoint

/-- The greater of two values, where a value that is no number gives way to the other. -/
def greater {α : Type} [FloatingPoint α] (a b : α) : α :=
  if isNaN a then b else if isNaN b then a else if lt a b then b else a

end FloatingPoint

/-- Numbers that lie in memory as `width` bytes each. -/
class Stored (α : Type) where
  width : Nat
  encode : α → List UInt8
  decode : List UInt8 → α

/-- Storing loses nothing, and a byte pattern stands for one number. -/
class LawfulStored (α : Type) [Stored α] [Zero α] : Prop where
  width_dvd : Stored.width α ∣ 8
  length_encode (a : α) : (Stored.encode a).length = Stored.width α
  decode_encode (a : α) : Stored.decode (Stored.encode a) = a
  encode_decode (bs : List UInt8) (h : bs.length = Stored.width α) :
    Stored.encode (Stored.decode bs : α) = bs
  encode_zero : Stored.encode (0 : α) = List.replicate (Stored.width α) 0

end HorizonQp
