/-
  HorizonQp.Json.Basic — values of JSON.

  A number keeps its digits as written, so that a reader can round them once. A string
  written with half of a surrogate pair names no text, and is `none`; it is still a
  string, and may be the name of a member. An object keeps every member, repeated names
  included.

  `record?` reads the members of a record: from an object, where every name has to be a
  text, no known name may be repeated and others are ignored with all that is in them, or
  from an array, which gives them in order.
-/

namespace HorizonQp.Json

/-- A number `± whole.fraction e exponent`, digit by digit. -/
structure Number where
  negative : Bool
  whole : List Nat
  fraction : Option (List Nat)
  exponent : Option Int
  deriving DecidableEq, Repr

inductive Value where
  | null
  | bool (b : Bool)
  | number (n : Number)
  | string (s : Option String)
  | array (items : List Value)
  | object (members : List (Option String × Value))

namespace Number

/-- The number that the digits are, most significant first. -/
def ofDigits (ds : List Nat) : Nat := ds.foldl (fun n d => 10 * n + d) 0

/-- The natural number, if it is written as one: without sign, fraction or exponent. -/
def nat? (n : Number) : Option Nat :=
  if !n.negative && n.fraction.isNone && n.exponent.isNone then some (ofDigits n.whole) else none

end Number

namespace Value

def nat? : Value → Option Nat
  | .number n => n.nat?
  | _ => none

def items? : Value → Option (List Value)
  | .array items => some items
  | _ => none

/-- The values of the named members, where a member may be missing but not repeated. -/
def members? (names : List String) (members : List (Option String × Value)) : Option (List (Option Value)) :=
  if members.all (·.1.isSome) then
    names.mapM fun name =>
      match members.filter (·.1 == some name) with
      | [] => some none
      | [(_, v)] => some (some v)
      | _ => none
  else none

/-- The members of a record with the given names. -/
def record? (names : List String) : Value → Option (List (Option Value))
  | .object members => members? names members
  | .array items =>
    if items.length ≤ names.length then
      some (items.map some ++ List.replicate (names.length - items.length) none)
    else none
  | _ => none

end Value

end HorizonQp.Json
