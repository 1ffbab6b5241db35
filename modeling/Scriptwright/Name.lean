/-
Names that the scripts give to variables and functions, and the labels of a
batch file, which are found without regard to case.
-/
import Scriptwright.Text.Basic

namespace Scriptwright

/-- Whether a text can name a variable or a function in both families: word characters,
the first of which is no digit. -/
def isIdentifier (name : String) : Bool :=
  match name.toList with
  | [] => false
  | c :: cs => (c.isAlpha || c == '_') && cs.all Text.isWordChar

/-- What a batch file finds a label by: its letters, capital or not. -/
def labelKey (label : String) : String :=
  Text.lowerAscii label

/-- Whether two names are the same to a batch file. -/
def sameLabel (a b : String) : Bool :=
  labelKey a == labelKey b

/-- Whether a text can end a label as it stands. -/
def isLabelSafe (text : String) : Bool :=
  !text.isEmpty && text.toList.all Text.isWordChar

/-- A text as the end of a label: each character that no label holds becomes an underscore. -/
def labelOf (text : String) : String :=
  Text.map (fun c => if Text.isWordChar c then c else '_') text

theorem labelOf_of_isLabelSafe {text : String} (h : isLabelSafe text = true) : labelOf text = text := by
  simp only [isLabelSafe, Bool.and_eq_true, List.all_eq_true] at h
  have same : (text.toList.map fun c => if Text.isWordChar c then c else '_') = text.toList := by
    conv => rhs; rw [← List.map_id text.toList]
    exact List.map_congr_left fun c hc => by simp [h.2 c hc]
  simp [labelOf, Text.map, same]

end Scriptwright
