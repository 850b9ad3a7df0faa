/-
  HorizonQp.Json.Record — records as JSON.

  Dimensions are written as an object with their fields in order and no blanks, and read
  from any order. Every field is needed, every number has to be a natural number of at
  most a word; whether the fields fit together is not asked. Tolerances are read over the
  defaults. A tolerance is written with the fewest digits that read back, positionally
  from `0.00001` up to, but not with, ten to the sixteenth.
-/

import HorizonQp.Json.Reader
import HorizonQp.Json.Real
import HorizonQp.Dims
import HorizonQp.Dense
import HorizonQp.Residual.Tolerances

namespace HorizonQp

open Json (Value)

namespace Json

/-- A natural number that fits a word. -/
def Value.word? (v : Value) : Option Nat := do
  let n ← v.nat?
  if n ≤ Word.greatest then pure n else none

def Value.words? (v : Value) : Option (List Nat) := do (← v.items?).mapM Value.word?

def arrayText (ns : List Nat) : String := "[" ++ ",".intercalate (ns.map Nat.repr) ++ "]"

/-- An object with the given members, whose values are written already. -/
def objectText (members : List (String × String)) : String :=
  "\x7b" ++ ",".intercalate (members.map fun (name, text) => "\"" ++ name ++ "\":" ++ text) ++ "\x7d"

/-- The layout of the numbers. -/
def numbers : Decimal.Plain := ⟨-4, 16⟩

end Json

namespace Dims

def names : List String := ["N", "nx", "nu", "nb", "nbu", "nbx", "ng", "ns"]

def ofJson? (v : Value) : Option Dims := do
  match ← v.record? names with
  | [some N, some nx, some nu, some nb, some nbu, some nbx, some ng, some ns] =>
    pure {
      N := ← N.word?, nx := ← nx.words?, nu := ← nu.words?, nb := ← nb.words?
      nbu := ← nbu.words?, nbx := ← nbx.words?, ng := ← ng.words?, ns := ← ns.words? }
  | _ => none

def json (d : Dims) : String :=
  Json.objectText (("N", d.N.repr) ::
    (names.drop 1).zip ([d.nx, d.nu, d.nb, d.nbu, d.nbx, d.ng, d.ns].map Json.arrayText))

end Dims

namespace DenseDims

def names : List String := ["nv", "ne", "nb", "ng"]

def ofJson? (v : Value) : Option DenseDims := do
  match ← v.record? names with
  | [some nv, some ne, some nb, some ng] => pure ⟨← nv.word?, ← ne.word?, ← nb.word?, ← ng.word?⟩
  | _ => none

def json (d : DenseDims) : String := Json.objectText (names.zip ([d.nv, d.ne, d.nb, d.ng].map Nat.repr))

end DenseDims

namespace Tolerances

open Binary (Double)

def names : List String := ["tol_stat", "tol_eq", "tol_ineq", "tol_comp"]

def ofJson? (v : Value) : Option (Tolerances Double) := do
  match ← (← v.record? names).mapM fun member => member.mapM Value.real? with
  | [stat, eq, ineq, comp] => pure ((⟨stat, eq, ineq, comp⟩ : GivenTolerances Double).completed .default)
  | _ => none

def json (t : Tolerances Double) : String :=
  Json.objectText (names.zip ([t.stat, t.eq, t.ineq, t.comp].map Json.numbers.text))

/-- The tolerances are the same numbers. -/
def same (s t : Tolerances Double) : Bool :=
  ([s.stat, s.eq, s.ineq, s.comp].zip [t.stat, t.eq, t.ineq, t.comp]).all
    fun (x, y) => FloatingPoint.le x y && FloatingPoint.le y x

/-- Reading what is written gives the tolerances back. -/
def roundTrips (t : Tolerances Double) : Bool :=
  match (Json.parse? t.json).bind ofJson? with
  | some back => t.same back
  | none => false

end Tolerances

end HorizonQp
