/-
Blank characters and blank texts. A character is blank when Unicode gives it
the property White_Space, which is neither the ASCII class of `Char.isWhitespace`
nor the class of spaces: a zero-width space is not blank, a no-break space is.
-/
import Scriptwright.Text.Basic

namespace Scriptwright.Text

/-- The ranges of White_Space. -/
def blankRanges : List (Nat × Nat) :=
  [(0x9, 0xD), (0x20, 0x20), (0x85, 0x85), (0xA0, 0xA0), (0x1680, 0x1680), (0x2000, 0x200A),
    (0x2028, 0x2029), (0x202F, 0x202F), (0x205F, 0x205F), (0x3000, 0x3000)]

/-- Whether a character is white space. -/
def isBlankChar (c : Char) : Bool :=
  inRanges blankRanges c

/-- Whether a text holds nothing but white space. -/
def isBlank (text : String) : Bool :=
  text.toList.all isBlankChar

/-- A text without the white space at its two ends. -/
def trim (text : String) : String :=
  String.ofList (((text.toList.dropWhile isBlankChar).reverse.dropWhile isBlankChar).reverse)

end Scriptwright.Text
