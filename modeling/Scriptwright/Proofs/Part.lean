/-
A written script as the parts it is made of, not yet as text: lines of its
layout, arms of a `case` block, and the lines of each statement that holds no
others. A layout line keeps its indentation apart from its text, and an arm the
value it is for. `Part.allLines` gives the lines back.
-/
import Scriptwright.Proofs.Text.Characters
import Scriptwright.Statement.Lines

namespace Scriptwright

/-- One part of a written script. -/
inductive Part where
  /-- A line of the layout. -/
  | own (depth : Nat) (text : String)
  /-- A line that opens the arm of a value. -/
  | arm (depth : Nat) (value text : String)
  /-- The lines of a statement. -/
  | leaf (s : Statement) (lines : List Line)

namespace Part

/-- The white space before a line of some depth. -/
def indentation : Nat → String
  | 0 => ""
  | depth + 1 => Line.step ++ indentation depth

def lines : Part → List Line
  | own depth text => [.code (indentation depth ++ text)]
  | arm depth _ text => [.code (indentation depth ++ text)]
  | leaf _ lines => lines

/-- A part of a block, moved right by one step. -/
def indent : Part → Part
  | own depth text => own (depth + 1) text
  | arm depth value text => arm (depth + 1) value text
  | leaf s lines => leaf s (Line.indent lines)

def allLines (ps : List Part) : List Line :=
  ps.flatMap lines

/-- No line of the layout is blank, so indentation drops none. -/
def NotBlank : Part → Prop
  | own _ text | arm _ _ text => Text.isBlank text = false
  | leaf .. => True

@[simp] theorem allLines_nil : allLines [] = [] := rfl

@[simp] theorem allLines_cons (p : Part) (ps : List Part) : allLines (p :: ps) = p.lines ++ allLines ps := by
  simp [allLines]

@[simp] theorem allLines_append (ps qs : List Part) : allLines (ps ++ qs) = allLines ps ++ allLines qs := by
  simp [allLines]

theorem notBlank_indent {p : Part} : p.indent.NotBlank ↔ p.NotBlank := by
  cases p <;> rfl

theorem lines_indent {p : Part} (h : p.NotBlank) : p.indent.lines = Line.indent p.lines := by
  have hline : ∀ depth text, Text.isBlank text = false →
      [Line.code (indentation (depth + 1) ++ text)] = Line.indent [.code (indentation depth ++ text)] := by
    intro depth text hb
    have hb : Text.isBlank (indentation depth ++ text) = false := by rw [Text.isBlank_append, hb, Bool.and_false]
    simp [Line.indent, Line.indent?, hb, indentation, String.append_assoc]
  cases p with
  | own depth text => exact hline depth text h
  | arm depth value text => exact hline depth text h
  | leaf s ls => rfl

theorem allLines_indent {ps : List Part} (h : ∀ p ∈ ps, p.NotBlank) :
    allLines (ps.map indent) = Line.indent (allLines ps) := by
  induction ps with
  | nil => rfl
  | cons p ps ih =>
    rw [List.map_cons, allLines_cons, allLines_cons, Line.indent_append, lines_indent (h p List.mem_cons_self),
      ih fun q hq => h q (List.mem_cons_of_mem _ hq)]

/-- Indentation leaves something on the lines that had something on them. -/
theorem all_isBlank_indent (ls : List Line) :
    ((Line.indent ls).all fun l => Text.isBlank l.text) = ls.all fun l => Text.isBlank l.text := by
  induction ls with
  | nil => rfl
  | cons l ls ih =>
    rw [← List.singleton_append, Line.indent_append, List.all_append, List.all_append, ih]
    congr 1
    cases l with
    | literal text => rfl
    | code text =>
      cases hb : Text.isBlank text with
      | true => simp [Line.indent, Line.indent?, Line.text, hb]
      | false => simp [Line.indent, Line.indent?, Line.text, hb, Text.isBlank_append]

end Part
end Scriptwright
