/-
Small operations on texts, each given by what it does to the list of characters.
-/
namespace Scriptwright.Text

/-- A text with each character replaced by a few. -/
def flatMap (f : Char → List Char) (text : String) : String :=
  String.ofList (text.toList.flatMap f)

/-- A text with each character replaced by one. -/
def map (f : Char → Char) (text : String) : String :=
  String.ofList (text.toList.map f)

/-- A text with its ASCII capitals made small; every other character stays. -/
def lowerAscii (text : String) : String :=
  map Char.toLower text

/-- Whether a character lies in one of some ranges of code points, both ends included. -/
def inRanges (ranges : List (Nat × Nat)) (c : Char) : Bool :=
  ranges.any fun (first, last) => first ≤ c.toNat && c.toNat ≤ last

/-- Whether a character is an ASCII letter or digit, or an underscore. -/
def isWordChar (c : Char) : Bool :=
  c.isAlphanum || c == '_'

@[simp] theorem toList_flatMap (f : Char → List Char) (text : String) :
    (flatMap f text).toList = text.toList.flatMap f := by
  simp [flatMap]

@[simp] theorem toList_map (f : Char → Char) (text : String) : (map f text).toList = text.toList.map f := by
  simp [map]

@[simp] theorem toList_lowerAscii (text : String) :
    (lowerAscii text).toList = text.toList.map Char.toLower := by
  simp [lowerAscii]

end Scriptwright.Text
