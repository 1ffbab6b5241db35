/-
Places in a text. A place is the number of bytes of UTF-8 before it; what
messages show is its line, counted from 1 by line feeds, and the number of bytes
between the start of that line and the place.
-/
namespace Scriptwright.Text

/-- A line and a column. -/
structure Position where
  line : Nat
  column : Nat
  deriving DecidableEq, Repr

/-- The position of a place, for characters that start at a given byte on a given line. -/
def positionFrom (place line lineStart start : Nat) : List Char → Position
  | [] => ⟨line, place - lineStart⟩
  | c :: cs =>
    if place ≤ start then ⟨line, place - lineStart⟩
    else if c = '\n' then positionFrom place (line + 1) (start + 1) (start + 1) cs
    else positionFrom place line lineStart (start + c.utf8Size) cs

/-- The position of a place in a text. -/
def position (text : String) (place : Nat) : Position :=
  positionFrom place 1 0 0 text.toList

example : position "ab\ncd" 3 = ⟨2, 0⟩ ∧ position "ab\ncd" 5 = ⟨2, 2⟩ := by decide

end Scriptwright.Text
