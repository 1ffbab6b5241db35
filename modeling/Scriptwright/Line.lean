/-
The lines of a script. A line of code may be indented by the block it stands in;
a line of a here-document must stay exactly as it is, wherever it stands.
-/
import Scriptwright.Family
import Scriptwright.Text.Blank

namespace Scriptwright

/-- One line, without what ends it. -/
inductive Line where
  | code (text : String)
  | literal (text : String)
  deriving DecidableEq, Repr

namespace Line

/-- The text of a line. -/
def text : Line → String
  | code text => text
  | literal text => text

/-- One step of indentation. -/
def step : String := "   "

/-- A line moved right by one step; a blank line of code is dropped, since it would only
leave trailing spaces. -/
def indent? : Line → Option Line
  | code text => if Text.isBlank text then none else some (code (step ++ text))
  | literal text => some (literal text)

/-- The lines of a block, moved right by one step. -/
def indent (lines : List Line) : List Line :=
  lines.filterMap indent?

/-- Lines one after another, each with what ends it in a family. -/
def join (family : Family) (lines : List Line) : String :=
  String.ofList (lines.flatMap fun line => line.text.toList ++ family.lineTerminator.toList)

theorem join_append (family : Family) (a b : List Line) :
    join family (a ++ b) = join family a ++ join family b := by
  simp [join]

@[simp] theorem indent_nil : indent [] = [] := rfl

@[simp] theorem indent_append (a b : List Line) : indent (a ++ b) = indent a ++ indent b := by
  simp [indent]

end Line
end Scriptwright
