/-
  HorizonQp.Error — what can go wrong, and its wording.

  `ArenaError` is about the block of memory a problem is laid out in, `QpError` about
  everything else; an error of the first kind that arises in a call of the second is
  carried as `QpError.arena`. The wording is in the two `message` functions and nowhere
  else. `checkLength` and `checkIndices` are the two checks on caller's arrays.
-/

import HorizonQp.Field

namespace HorizonQp

inductive ArenaError where
  /-- The block is smaller than the layout needs. -/
  | capacityExceeded (required available : Nat)
  /-- The layout ends past the end of the block. -/
  | outOfBounds (cursor limit : Nat)
  deriving DecidableEq, Repr

namespace ArenaError

def message : ArenaError → String
  | .capacityExceeded required available =>
    s!"arena capacity exceeded: requested {required} bytes, capacity {available} bytes"
  | .outOfBounds cursor limit => s!"arena cursor {cursor} outside memory bounds (limit {limit})"

end ArenaError

/-- What an accessor accepts. -/
inductive Accepted where
  | kind (k : Field.Kind)
  | floatingPoint
  deriving DecidableEq, Repr

def Accepted.text : Accepted → String
  | .kind .matrix => "matrix"
  | .kind .vector => "vector"
  | .kind .index => "index"
  | .floatingPoint => "floating point"

inductive QpError where
  /-- An array is not as long as the dimensions say. -/
  | incompatibleDimension (expected found : Nat)
  /-- There is no such stage; `last` is the last there is. -/
  | stageOutOfRange (stage last : Nat)
  | unknownField (name : String)
  /-- The field is not of the kind that the accessor takes. -/
  | fieldKind (field : Field) (expected : Accepted)
  /-- An entry of an index array is not below `limit`. -/
  | indexOutOfRange (index limit : Nat)
  /-- More bounds on inputs or states than there are inputs or states. -/
  | badBoundSplit (stage : Nat)
  | arena (error : ArenaError)
  deriving DecidableEq, Repr

namespace QpError

def message : QpError → String
  | .incompatibleDimension expected found => s!"incompatible dimension: expected {expected}, found {found}"
  | .stageOutOfRange stage last => s!"stage {stage} out of range (last valid stage is {last})"
  | .unknownField name => s!"unknown field name '{name}'"
  | .fieldKind field expected =>
    let fieldName := field.name
    let expectedText := expected.text
    s!"field {fieldName} is not a {expectedText} field"
  | .indexOutOfRange index limit => s!"index {index} out of range (limit {limit})"
  | .badBoundSplit stage => s!"bound split at stage {stage} exceeds the stage dimensions"
  | .arena error => "arena error: " ++ error.message

end QpError

/-- The array has the length that the dimensions imply. -/
def checkLength (expected found : Nat) : Except QpError Unit :=
  if expected = found then .ok () else .error (.incompatibleDimension expected found)

/-- Every entry of the index array is below `limit`; the first that is not is reported. -/
def checkIndices (idx : List Nat) (limit : Nat) : Except QpError Unit :=
  match idx.find? (limit ≤ ·) with
  | some index => .error (.indexOutOfRange index limit)
  | none => .ok ()

theorem checkLength_eq_ok {expected found : Nat} : checkLength expected found = .ok () ↔ expected = found := by
  unfold checkLength
  split <;> simp_all

theorem checkIndices_eq_ok {idx : List Nat} {limit : Nat} :
    checkIndices idx limit = .ok () ↔ ∀ k ∈ idx, k < limit := by
  unfold checkIndices
  cases h : idx.find? (limit ≤ ·) with
  | none => simpa using h
  | some k =>
    have hk := List.find?_some h
    have hm := List.mem_of_find?_eq_some h
    simp only [reduceCtorEq, false_iff]
    intro hall
    have := hall k hm
    simp only [decide_eq_true_eq] at hk
    omega

end HorizonQp
