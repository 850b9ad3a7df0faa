/-
  HorizonQp.Decimal.Text — how numbers are written.

  Two forms. `Plain.text` writes the fewest digits that read back (`shortest`). Its
  layout is a `Plain` record: where the decimal point may stand for the number to be
  written positionally; outside that range it is written with an exponent, as
  `1.5e-7`. A positional number always has a digit after its point. `scientific` writes
  a fixed number of decimals and an exponent, rounded from the exact value, a tie going
  to the even digit. Both keep the sign of a zero.
-/

import HorizonQp.Decimal.Shortest
import HorizonQp.Binary.Numbers

namespace HorizonQp.Decimal

open Binary (Datum Encoded inUnits roundToEven scaled)

/-- The decimal digits of `n`, without leading zeros. -/
def digits (n : Nat) : List Char := Nat.toDigits 10 n

def zeros (n : Nat) : List Char := List.replicate n '0'

def dropTrailingZeros (ds : List Char) : List Char := (ds.reverse.dropWhile (· == '0')).reverse

def integer (i : Int) : List Char := if i < 0 then '-' :: digits i.natAbs else digits i.natAbs

def withSign (negative : Bool) (cs : List Char) : String :=
  String.ofList (if negative then '-' :: cs else cs)

/-- The text of a value that is not finite, and the text `finite` of one that is. -/
def datumText (finite : Bool → Nat → Int → String) : Datum → String
  | .nan => "NaN"
  | .infinite negative => withSign negative "inf".toList
  | .finite negative significand scale => finite negative significand scale

/-! ## Shortest digits -/

/-- A number is written positionally when its decimal point stands from `least` to
    `greatest` places right of its first digit's left side. -/
structure Plain where
  least : Int
  greatest : Int

namespace Plain

/-- The digits `ds` (the first not zero) with their point after `point` of them. -/
def layout (p : Plain) (ds : List Char) (point : Int) : List Char :=
  if p.least ≤ point ∧ point ≤ p.greatest then
    if point ≤ 0 then "0.".toList ++ zeros (-point).toNat ++ ds
    else if ds.length ≤ point.toNat then ds ++ zeros (point.toNat - ds.length) ++ ".0".toList
    else ds.take point.toNat ++ '.' :: ds.drop point.toNat
  else
    match ds with
    | first :: second :: rest => first :: '.' :: second :: rest ++ 'e' :: integer (point - 1)
    | _ => ds ++ 'e' :: integer (point - 1)

variable {α : Type} [Encoded α]

/-- The shortest text of `x` that reads back, in the layout `p`. -/
def text (p : Plain) (x : α) : String :=
  datumText (fun negative significand scale =>
    if significand = 0 then withSign negative "0.0".toList
    else
      let decimal := shortest (Encoded.format α) significand scale
      let ds := digits decimal.coefficient
      withSign negative (p.layout (dropTrailingZeros ds) (ds.length + decimal.scale)))
    (Encoded.datum x)

end Plain

/-! ## Fixed decimals -/

/-- `x` with `places` decimals and an exponent. -/
def scientific {α : Type} [Encoded α] (places : Nat) (x : α) : String :=
  datumText (fun negative significand scale =>
    let mark (ds : List Char) (exponent : Int) : List Char :=
      ds.take 1 ++ '.' :: ds.drop 1 ++ 'e' :: integer exponent
    if significand = 0 then withSign negative (mark (zeros (places + 1)) 0)
    else
      let (num, den) := scaled 2 significand scale
      let exponent := pointPosition num den - 1
      let (n, d) := inUnits 10 num den (exponent - places)
      let ds := digits (roundToEven n d)
      -- a carry gives one digit more, a zero, and the next exponent
      let exponent := if places + 1 < ds.length then exponent + 1 else exponent
      withSign negative (mark (ds.take (places + 1)) exponent))
    (Encoded.datum x)

end HorizonQp.Decimal
