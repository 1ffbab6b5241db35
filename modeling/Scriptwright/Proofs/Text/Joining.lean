/-
Lines and the texts they are joined to. Each line may have an end of its own, a
line feed with or without a carriage return before it (`joined`); whichever they
are, the cut of the text into lines gives the lines back, and nothing is lost or
put in where the last line has no end, unless that line is empty and not the
only one (`lines_undo_joining`). The other way round, a text with carriage
returns in line ends only is made of its lines (`ReturnsInEnds.madeOf`).
-/
import Scriptwright.Line
import Scriptwright.Proofs.Text.Characters
import Scriptwright.Proofs.Text.LineEnds

namespace Scriptwright

namespace Text

/-- What ends a line. -/
inductive LineEnd where
  | feed
  | returnFeed
  deriving DecidableEq, Repr

/-- The characters of a line end. -/
def LineEnd.chars : LineEnd → List Char
  | feed => ['\n']
  | returnFeed => ['\r', '\n']

/-- Lines one after another, each with an end of its own. -/
def joined (marked : List (String × LineEnd)) : String :=
  String.ofList (marked.flatMap fun line => line.1.toList ++ line.2.chars)

/-- A text is some lines, each with an end of its own behind it, which the last may lack. -/
def MadeOf (text : String) (ls : List String) : Prop :=
  ∃ marked : List (String × LineEnd), marked.map Prod.fst = ls ∧
    (joined marked = text ∨ ∃ final : LineEnd, joined marked = text ++ String.ofList final.chars)

variable {c : Char} {cs tail : List Char} {marked : List (String × LineEnd)}

theorem toList_joined_cons (line : String × LineEnd) (marked : List (String × LineEnd)) :
    (joined (line :: marked)).toList = line.1.toList ++ line.2.chars ++ (joined marked).toList := by
  simp [joined]

theorem plain_of_hasBreak {text : String} (h : hasBreak text = false) : ∀ c ∈ text.toList, isBreakChar c = false := by
  simpa [hasBreak] using h

/-! ## Cutting joined lines -/

theorem cut_lineEnd (ending : LineEnd) (cs : List Char) :
    cut (ending.chars ++ cs) = if cs = [] then [[]] else [] :: cut cs := by
  cases ending with
  | feed => exact cut_feed cs
  | returnFeed => exact (cut_returnFeed cs).trans (cut_feed cs)

/-- A line with its end is cut off, whatever follows it. -/
theorem cut_line {line : String} (h : hasBreak line = false) (ending : LineEnd) (cs : List Char) :
    cut (line.toList ++ ending.chars ++ cs) = line.toList :: if cs = [] then [] else cut cs := by
  rw [List.append_assoc, cut_append (plain_of_hasBreak h), cut_lineEnd]
  split <;> simp

theorem cut_of_hasBreak {line : String} (h : hasBreak line = false) : cut line.toList = [line.toList] := by
  have hline := cut_append (plain_of_hasBreak h) []
  rw [List.append_nil] at hline
  rw [hline]
  simp [cut, dropBreak, pieces, dropReturn]

theorem joined_append_eq_nil_iff : (joined marked).toList ++ tail = [] ↔ marked = [] ∧ tail = [] := by
  cases marked with
  | nil => simp [joined]
  | cons line marked =>
    obtain ⟨text, ending⟩ := line
    cases ending <;> simp [toList_joined_cons, LineEnd.chars]

/-- What stands behind the last line end is a line too, if there is anything or no line came before. -/
theorem cut_joined_append (h : ∀ line ∈ marked, hasBreak line.1 = false) {last : String}
    (hlast : hasBreak last = false) :
    cut ((joined marked).toList ++ last.toList)
      = marked.map (fun line => line.1.toList) ++ if last = "" ∧ marked ≠ [] then [] else [last.toList] := by
  induction marked with
  | nil => simpa [joined] using cut_of_hasBreak hlast
  | cons line marked ih =>
    have ih := ih fun other hother => h other (List.mem_cons_of_mem _ hother)
    rw [toList_joined_cons, List.append_assoc, cut_line (h line List.mem_cons_self), ih]
    by_cases hnil : (joined marked).toList ++ last.toList = []
    · obtain ⟨rfl, hempty⟩ := joined_append_eq_nil_iff.1 hnil
      rw [if_pos hnil]
      simp [String.toList_eq_nil_iff.1 hempty]
    · rw [if_neg hnil, List.map_cons, List.cons_append]
      rw [joined_append_eq_nil_iff, String.toList_eq_nil_iff, not_and'] at hnil
      by_cases hempty : last = ""
      · simp [hempty, hnil hempty]
      · simp [hempty]

theorem lines_joined_append (h : ∀ line ∈ marked, hasBreak line.1 = false) {last : String}
    (hlast : hasBreak last = false) :
    lines (joined marked ++ last) = marked.map Prod.fst ++ if last = "" ∧ marked ≠ [] then [] else [last] := by
  rw [lines_eq_cut, String.toList_append, cut_joined_append h hlast]
  split <;> simp [Function.comp_def]

theorem lines_joined (hne : marked ≠ []) (h : ∀ line ∈ marked, hasBreak line.1 = false) :
    lines (joined marked) = marked.map Prod.fst := by
  have hall : lines (joined marked ++ "") = _ := lines_joined_append h rfl
  rwa [String.append_empty, if_pos ⟨rfl, hne⟩, List.append_nil] at hall

end Text

/-! ## Lines of a script -/

/-- The end of each line of a script. -/
def Family.lineEnd : Family → Text.LineEnd
  | .unix => .feed
  | .windows => .returnFeed

theorem Family.chars_lineEnd (family : Family) : family.lineEnd.chars = family.lineTerminator.toList := by
  cases family <;> rfl

/-- A script has one end for all its lines. -/
theorem Line.join_eq_joined (family : Family) (ls : List Line) :
    join family ls = Text.joined (ls.map fun l => (l.text, family.lineEnd)) := by
  simp only [join, Text.joined, List.flatMap_map, Family.chars_lineEnd]

namespace Text

/-- Join any lines without line breaks, one at least, with a line end of either kind behind each: the text is cut into
just these lines. So it is with lines of a script and the line ends of a family. Where nothing ends the last line, the
text is still cut into these lines if and only if the last is not empty or there is no other. And whatever the text, it
is cut into one line at least, and no line has a line feed. -/
theorem lines_undo_joining :
    (∀ marked : List (String × LineEnd), marked ≠ [] → (∀ line ∈ marked, hasBreak line.1 = false) →
        lines (joined marked) = marked.map Prod.fst) ∧
      (∀ (family : Family) (ls : List Line), ls ≠ [] → (∀ l ∈ ls, hasBreak l.text = false) →
        lines (Line.join family ls) = ls.map Line.text) ∧
      (∀ (marked : List (String × LineEnd)) (last : String), (∀ line ∈ marked, hasBreak line.1 = false) →
        hasBreak last = false →
          (lines (joined marked ++ last) = marked.map Prod.fst ++ [last] ↔ last ≠ "" ∨ marked = [])) ∧
      ∀ text, lines text ≠ [] ∧ ∀ line ∈ lines text, '\n' ∉ line.toList := by
  refine ⟨fun marked hne h => lines_joined hne h, fun family ls hne h => ?_, fun marked last h hlast => ?_,
    fun text => ⟨lines_ne_nil text, fun line hline => not_mem_of_mem_lines hline⟩⟩
  · rw [Line.join_eq_joined, lines_joined (by simpa using hne) (by simpa using h), List.map_map]
    rfl
  · rw [lines_joined_append h hlast, List.append_cancel_left_eq]
    split
    · next hlost => simp [hlost]
    · next hkept => simpa [Decidable.imp_iff_not_or] using hkept

/-- Empty lines first, in a row and last, with both kinds of line end; and the same with no end behind the last. -/
theorem lines_undo_joining_of_mixture :
    lines "\r\na\n\n\r\n" = ["", "a", "", ""] ∧ lines "\r\na\n\n" ≠ ["", "a", "", ""] ∧
      lines "\r\na\n\nb" = ["", "a", "", "b"] ∧
      lines (Line.join .windows [.code "", .literal " ", .code ""]) = ["", " ", ""] := by
  have hmarked : ∀ line ∈ [("", LineEnd.returnFeed), ("a", .feed), ("", .feed)], hasBreak line.1 = false := by decide
  have hcut := lines_undo_joining.2.2.1 _ "" hmarked rfl
  refine ⟨?_, ?_, ?_, ?_⟩
  · exact lines_undo_joining.1 [("", .returnFeed), ("a", .feed), ("", .feed), ("", .returnFeed)] (by decide) (by decide)
  · exact fun h => absurd (hcut.1 h) (by decide)
  · exact (lines_undo_joining.2.2.1 _ "b" hmarked rfl).2 (.inl (by decide))
  · exact lines_undo_joining.2.1 .windows [.code "", .literal " ", .code ""] (by decide) (by decide)

/-! ## Lines of any text -/

theorem joined_cons (line : String) (ending : LineEnd) (marked : List (String × LineEnd)) :
    joined ((line, ending) :: marked) = line ++ String.ofList ending.chars ++ joined marked := by
  apply String.toList_injective
  rw [toList_joined_cons]
  simp

/-- A line with its end may come first. -/
theorem MadeOf.cons {text : String} {ls : List String} (h : MadeOf text ls) (line : String) (ending : LineEnd) :
    MadeOf (line ++ String.ofList ending.chars ++ text) (line :: ls) := by
  obtain ⟨marked, rfl, htext⟩ := h
  refine ⟨(line, ending) :: marked, rfl, ?_⟩
  rw [joined_cons]
  rcases htext with rfl | ⟨final, hfinal⟩
  · exact .inl rfl
  · exact .inr ⟨final, by simp only [hfinal, String.append_assoc]⟩

/-- What is put before the text is put before its first line. -/
theorem MadeOf.extend {text line : String} {ls : List String} (h : MadeOf text (line :: ls)) (start : String) :
    MadeOf (start ++ text) ((start ++ line) :: ls) := by
  obtain ⟨marked, hmarked, htext⟩ := h
  obtain ⟨⟨first, ending⟩, rest, rfl, rfl, rfl⟩ := List.map_eq_cons_iff.1 hmarked
  refine ⟨(start ++ first, ending) :: rest, rfl, ?_⟩
  rw [joined_cons] at htext ⊢
  simp only [String.append_assoc] at htext ⊢
  rcases htext with rfl | ⟨final, hfinal⟩
  · exact .inl rfl
  · exact .inr ⟨final, by rw [hfinal]⟩

theorem ReturnsInEnds.ending (h : ReturnsInEnds cs) (ending : LineEnd) : ReturnsInEnds (ending.chars ++ cs) := by
  cases ending with
  | feed => exact .feed h
  | returnFeed => exact .returnFeed h

/-- Induction on such a text with one case for both kinds of line end. -/
@[elab_as_elim]
theorem ReturnsInEnds.induction {motive : ∀ cs, ReturnsInEnds cs → Prop} (nil : motive [] .nil)
    (ending : ∀ (ending : LineEnd) {cs : List Char} (h : ReturnsInEnds cs), motive cs h →
      motive (ending.chars ++ cs) (h.ending ending))
    (char : ∀ {c : Char} {cs : List Char} (hc : isBreakChar c = false) (h : ReturnsInEnds cs), motive cs h →
      motive (c :: cs) (.char hc h))
    (h : ReturnsInEnds cs) : motive cs h := by
  induction h with
  | nil => exact nil
  | feed h ih => exact ending .feed h ih
  | returnFeed h ih => exact ending .returnFeed h ih
  | char hc h ih => exact char hc h ih

/-- Where carriage returns stand in line ends only, a text is made of its lines. -/
theorem ReturnsInEnds.madeOf (h : ReturnsInEnds cs) : MadeOf (String.ofList cs) (lines (String.ofList cs)) := by
  rw [lines_eq_cut, String.toList_ofList]
  induction h using ReturnsInEnds.induction with
  | nil => exact ⟨[("", .feed)], rfl, .inr ⟨.feed, rfl⟩⟩
  | ending ending _ ih =>
    rw [cut_lineEnd]
    split
    · next hnil => exact ⟨[("", ending)], rfl, .inl (by simp [hnil, joined])⟩
    · simpa [String.ofList_append] using ih.cons "" ending
  | @char c cs hc _ ih =>
    rw [cut_cons hc]
    obtain ⟨line, rest, hcut⟩ := List.exists_cons_of_ne_nil (cut_ne_nil cs)
    rw [hcut] at ih ⊢
    simpa [← String.ofList_append] using ih.extend (String.ofList [c])

theorem ReturnsInEnds.return_not_mem_cut (h : ReturnsInEnds cs) : ∀ line ∈ cut cs, '\r' ∉ line := by
  induction h using ReturnsInEnds.induction with
  | nil => simp [cut, dropBreak, pieces, dropReturn]
  | ending ending _ ih =>
    rw [cut_lineEnd]
    split
    · simp
    · simpa using ih
  | @char c cs hc _ ih =>
    have hreturn : '\r' ≠ c := by
      rintro rfl
      cases hc
    rw [cut_cons hc]
    obtain ⟨line, rest, hcut⟩ := List.exists_cons_of_ne_nil (cut_ne_nil cs)
    rw [hcut] at ih ⊢
    simpa [hreturn] using ih

/-- Then no line holds any part of a line break. -/
theorem ReturnsInEnds.hasBreak_lines (h : ReturnsInEnds cs) {line : String} (hline : line ∈ lines (String.ofList cs)) :
    hasBreak line = false := by
  refine hasBreak_eq_false_iff.2 ⟨not_mem_of_mem_lines hline, ?_⟩
  rw [lines_eq_cut, String.toList_ofList] at hline
  obtain ⟨chars, hchars, rfl⟩ := List.mem_map.1 hline
  simpa using h.return_not_mem_cut chars hchars

end Text
end Scriptwright
