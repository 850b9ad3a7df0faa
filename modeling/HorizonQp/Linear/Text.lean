/-
  HorizonQp.Linear.Text — how vectors and matrices are written.

  Numbers have the fewest digits that read back, are positional from `0.0001` up to, but
  not with, ten to the sixteenth, and otherwise have an exponent (`numbers`). A list is
  written in brackets with commas. A matrix is written one row a line, between an empty
  line and another.
-/

import HorizonQp.Linear.Matrix
import HorizonQp.Decimal.Text

namespace HorizonQp.Linear

open Binary (Encoded)

/-- The layout of the numbers in a text. -/
def numbers : Decimal.Plain := ⟨-3, 16⟩

def listText (items : List String) : String := "[" ++ ", ".intercalate items ++ "]"

def vectorText {α : Type} [Encoded α] (x : List α) : String := listText (x.map numbers.text)

def indexText (idx : List Nat) : String := listText (idx.map Nat.repr)

namespace Matrix

variable {α : Type} [Zero α] [Encoded α]

def rowText (A : Matrix α) (i : Nat) : String :=
  "[ " ++ String.join ((List.range A.cols).map fun j => " " ++ numbers.text (A.entry i j)) ++ "]\n"

def text (A : Matrix α) : String :=
  "\n" ++ String.join ((List.range A.rows).map A.rowText) ++ "\n"

end Matrix

end HorizonQp.Linear
