/-
  HorizonQp.Json.Reader — reading JSON.

  The grammar is the standard's: no leading zeros, no trailing commas, no control
  characters in strings, and only blanks, tabs and line ends between tokens. `parse?`
  reads a whole text, which may have nothing but such space around its one value. Nesting
  has no limit.
-/

import HorizonQp.Json.Basic

namespace HorizonQp.Json.Reader

/-! ## Space and digits -/

def isSpace (c : Char) : Bool := c == ' ' || c == '\t' || c == '\n' || c == '\r'

def skip (cs : List Char) : List Char := cs.dropWhile isSpace

def digit? (c : Char) : Option Nat := if c.isDigit then some (c.toNat - 48) else none

/-- The digits in front, and the rest. -/
def digits : List Char → List Nat × List Char
  | [] => ([], [])
  | c :: cs =>
    match digit? c with
    | some d => let (ds, rest) := digits cs; (d :: ds, rest)
    | none => ([], c :: cs)

/-- The digits in front, at least one. -/
def digits1? (cs : List Char) : Option (List Nat × List Char) :=
  match digits cs with
  | ([], _) => none
  | found => some found

/-! ## Numbers -/

/-- The digits before the point: a zero stands alone. -/
def whole? (cs : List Char) : Option (List Nat × List Char) :=
  match digits1? cs with
  | some (0 :: _ :: _, _) => none
  | found => found

def fraction? : List Char → Option (Option (List Nat) × List Char)
  | '.' :: cs => do
    let (ds, rest) ← digits1? cs
    pure (some ds, rest)
  | cs => some (none, cs)

def exponentDigits? (negative : Bool) (cs : List Char) : Option (Option Int × List Char) := do
  let (ds, rest) ← digits1? cs
  let size : Int := Number.ofDigits ds
  pure (some (if negative then -size else size), rest)

def exponent? : List Char → Option (Option Int × List Char)
  | e :: cs =>
    if e == 'e' || e == 'E' then
      match cs with
      | '+' :: cs => exponentDigits? false cs
      | '-' :: cs => exponentDigits? true cs
      | cs => exponentDigits? false cs
    else some (none, e :: cs)
  | [] => some (none, [])

def number? (cs : List Char) : Option (Number × List Char) := do
  let (negative, cs) := match cs with
    | '-' :: cs => (true, cs)
    | cs => (false, cs)
  let (whole, cs) ← whole? cs
  let (fraction, cs) ← fraction? cs
  let (exponent, cs) ← exponent? cs
  pure (⟨negative, whole, fraction, exponent⟩, cs)

/-! ## Strings -/

def hexDigit? (c : Char) : Option Nat :=
  if c.isDigit then some (c.toNat - 48)
  else if 'a' ≤ c && c ≤ 'f' then some (c.toNat - 87)
  else if 'A' ≤ c && c ≤ 'F' then some (c.toNat - 55)
  else none

/-- The code unit of four hexadecimal digits. -/
def hex4? : List Char → Option (Nat × List Char)
  | a :: b :: c :: d :: rest => do
    pure (4096 * (← hexDigit? a) + 256 * (← hexDigit? b) + 16 * (← hexDigit? c) + (← hexDigit? d), rest)
  | _ => none

/-- What the escape of a single character stands for. -/
def escape? : Char → Option Char
  | '"' => some '"'
  | '\\' => some '\\'
  | '/' => some '/'
  | 'b' => some '\x08'
  | 'f' => some '\x0c'
  | 'n' => some '\n'
  | 'r' => some '\r'
  | 't' => some '\t'
  | _ => none

/-- The code points and escaped code units up to the closing quote, and what follows it. -/
def units? : List Char → Option (List Nat × List Char)
  | [] => none
  | '"' :: rest => some ([], rest)
  | '\\' :: 'u' :: a :: b :: c :: d :: cs => do
    let (unit, _) ← hex4? [a, b, c, d]
    let (units, rest) ← units? cs
    pure (unit :: units, rest)
  | '\\' :: c :: cs => do
    let c ← escape? c
    let (units, rest) ← units? cs
    pure (c.toNat :: units, rest)
  | c :: cs =>
    if c.toNat < 32 then none
    else do
      let (units, rest) ← units? cs
      pure (c.toNat :: units, rest)

/-- The characters of code points and of surrogate pairs. Half of a pair is none. -/
def chars? : List Nat → Option (List Char)
  | [] => some []
  | u :: us =>
    if 0xD800 ≤ u ∧ u < 0xDC00 then
      match us with
      | v :: us =>
        if 0xDC00 ≤ v ∧ v < 0xE000 then
          (chars? us).map (Char.ofNat (0x10000 + 1024 * (u - 0xD800) + (v - 0xDC00)) :: ·)
        else none
      | [] => none
    else if 0xDC00 ≤ u ∧ u < 0xE000 then none
    else (chars? us).map (Char.ofNat u :: ·)

/-- A string behind its opening quote. -/
def string? (cs : List Char) : Option (Option String × List Char) := do
  let (units, rest) ← units? cs
  pure ((chars? units).map String.ofList, rest)

/-! ## Values -/

mutual

/-- A value, with `fuel` for as many steps into it. -/
def value? : Nat → List Char → Option (Value × List Char)
  | 0, _ => none
  | fuel + 1, cs =>
    match skip cs with
    | 'n' :: 'u' :: 'l' :: 'l' :: rest => some (.null, rest)
    | 't' :: 'r' :: 'u' :: 'e' :: rest => some (.bool true, rest)
    | 'f' :: 'a' :: 'l' :: 's' :: 'e' :: rest => some (.bool false, rest)
    | '"' :: rest =>
      match string? rest with
      | some (s, rest) => some (.string s, rest)
      | none => none
    | '[' :: rest =>
      match skip rest with
      | ']' :: rest => some (.array [], rest)
      | rest => items? fuel [] rest
    | '\x7b' :: rest =>
      match skip rest with
      | '\x7d' :: rest => some (.object [], rest)
      | rest => members? fuel [] rest
    | cs =>
      match number? cs with
      | some (n, rest) => some (.number n, rest)
      | none => none

/-- The items of an array from here to its end, behind those in `done`, which are reversed. -/
def items? : Nat → List Value → List Char → Option (Value × List Char)
  | 0, _, _ => none
  | fuel + 1, done, cs =>
    match value? fuel cs with
    | none => none
    | some (v, rest) =>
      match skip rest with
      | ',' :: rest => items? fuel (v :: done) rest
      | ']' :: rest => some (.array (v :: done).reverse, rest)
      | _ => none

/-- The members of an object from here to its end, behind those in `done`, which are reversed. -/
def members? : Nat → List (Option String × Value) → List Char → Option (Value × List Char)
  | 0, _, _ => none
  | fuel + 1, done, cs =>
    match skip cs with
    | '"' :: rest =>
      match string? rest with
      | some (name, rest) =>
        match skip rest with
        | ':' :: rest =>
          match value? fuel rest with
          | none => none
          | some (v, rest) =>
            match skip rest with
            | ',' :: rest => members? fuel ((name, v) :: done) rest
            | '\x7d' :: rest => some (.object ((name, v) :: done).reverse, rest)
            | _ => none
        | _ => none
      | _ => none
    | _ => none

end

end Reader

/-- The value that the text is. -/
def parse? (s : String) : Option Value :=
  let cs := s.toList
  match Reader.value? (2 * cs.length + 2) cs with
  | some (v, rest) => if (Reader.skip rest).isEmpty then some v else none
  | none => none

end HorizonQp.Json
