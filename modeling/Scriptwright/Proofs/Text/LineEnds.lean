/-
Lines and line ends. A text is cut into lines one character at a time: a line
end closes a line unless nothing follows it, and any other character belongs to
the first line of what follows (`cut_feed`, `cut_cons`). So where a carriage
return stands only in line ends, the lines with a terminator behind each are the
text with its line ends written anew, and one more if the text has none at its
end (`flatMap_cut`).
-/
import Scriptwright.Proofs.Text.Lines

namespace Scriptwright.Text

/-- The lines of a text, as characters. -/
def cut (cs : List Char) : List (List Char) :=
  (pieces '\n' (dropBreak cs)).map dropReturn

/-- A text with each of its line ends, a line feed with or without a carriage return before it, written in one way. -/
def writeEnds (terminator : List Char) : List Char → List Char
  | [] => []
  | '\r' :: '\n' :: cs => terminator ++ writeEnds terminator cs
  | '\n' :: cs => terminator ++ writeEnds terminator cs
  | c :: cs => c :: writeEnds terminator cs

/-- A text of line ends and of characters that break no line. -/
inductive ReturnsInEnds : List Char → Prop where
  | nil : ReturnsInEnds []
  | feed {cs : List Char} (rest : ReturnsInEnds cs) : ReturnsInEnds ('\n' :: cs)
  | returnFeed {cs : List Char} (rest : ReturnsInEnds cs) : ReturnsInEnds ('\r' :: '\n' :: cs)
  | char {c : Char} {cs : List Char} (hc : isBreakChar c = false) (rest : ReturnsInEnds cs) : ReturnsInEnds (c :: cs)

variable {c : Char} {cs a b terminator : List Char}

theorem lines_eq_cut (text : String) : lines text = (cut text.toList).map String.ofList := by
  rw [lines, cut, List.map_map]
  rfl

/-! ## Cutting -/

theorem cut_ne_nil (cs : List Char) : cut cs ≠ [] := by
  simp [cut, pieces_ne_nil]

/-- A line feed closes a line, but for one at the end. -/
theorem cut_feed (cs : List Char) : cut ('\n' :: cs) = if cs = [] then [[]] else [] :: cut cs := by
  split
  · next h => rw [h]; rfl
  · next h =>
    rw [cut, dropBreak, pieces, if_pos rfl]
    · rfl
    · exact fun _ he => h he
    · exact fun hc _ => absurd hc (by decide)

/-- A carriage return before a line feed makes no difference. -/
theorem cut_returnFeed (cs : List Char) : cut ('\r' :: '\n' :: cs) = cut ('\n' :: cs) := by
  rw [cut_feed]
  split
  · next h => rw [h]; rfl
  · next h =>
    have hdrop : dropBreak ('\r' :: '\n' :: cs) = '\r' :: '\n' :: dropBreak cs := by
      rw [dropBreak, dropBreak]
      · exact fun _ he => h he
      · exact fun hc _ => absurd hc (by decide)
      · exact fun hc _ => absurd hc (by decide)
      · exact fun _ he => h (List.cons.inj he).2
    rw [cut, hdrop, pieces_cons (by decide), pieces, if_pos rfl]
    rfl

theorem cut_append (h : ∀ c ∈ a, isBreakChar c = false) (b : List Char) :
    cut (a ++ b) = (cut b).modifyHead (a ++ ·) := by
  have hfeed : '\n' ∉ a := fun hm => absurd (h _ hm) (by decide)
  rw [cut, cut, dropBreak_append h, pieces_append hfeed]
  cases pieces '\n' (dropBreak b) with
  | nil => rfl
  | cons piece rest => simp [dropReturn_append h]

/-- A character that breaks no line is the first of the first line. -/
theorem cut_cons (h : isBreakChar c = false) (cs : List Char) : cut (c :: cs) = (cut cs).modifyHead (c :: ·) :=
  cut_append (a := [c]) (by simpa using h) cs

/-! ## Line ends -/

theorem returnsInEnds_of_plain (h : ∀ c ∈ a, isBreakChar c = false) : ReturnsInEnds a := by
  induction a with
  | nil => exact .nil
  | cons c a ih => exact .char (h c List.mem_cons_self) (ih fun d hd => h d (List.mem_cons_of_mem _ hd))

theorem ReturnsInEnds.append (ha : ReturnsInEnds a) (hb : ReturnsInEnds b) : ReturnsInEnds (a ++ b) := by
  induction ha with
  | nil => exact hb
  | feed _ ih => exact .feed ih
  | returnFeed _ ih => exact .returnFeed ih
  | char hc _ ih => exact .char hc ih

theorem ReturnsInEnds.flatMap {α : Type} {f : α → List Char} {xs : List α} (h : ∀ x ∈ xs, ReturnsInEnds (f x)) :
    ReturnsInEnds (xs.flatMap f) :=
  flatMap_of_append .nil .append h

theorem writeEnds_feed (terminator cs : List Char) :
    writeEnds terminator ('\n' :: cs) = terminator ++ writeEnds terminator cs := by
  rw [writeEnds]

theorem writeEnds_cons (h : isBreakChar c = false) (terminator cs : List Char) :
    writeEnds terminator (c :: cs) = c :: writeEnds terminator cs := by
  rw [writeEnds]
  · rintro cs' rfl -
    cases h
  · rintro rfl
    cases h

/-- Line feeds that stay line feeds change nothing in a text without carriage returns. -/
theorem writeEnds_of_not_mem (h : '\r' ∉ cs) : writeEnds ['\n'] cs = cs := by
  fun_induction writeEnds ['\n'] cs with
  | case1 => rfl
  | case2 => simp at h
  | case3 cs ih => rw [ih fun hm => h (List.mem_cons_of_mem _ hm)]; rfl
  | case4 c cs _ _ ih => rw [ih fun hm => h (List.mem_cons_of_mem _ hm)]

/-- Apart from carriage returns, which only ends of lines hold, nothing changes where line ends are written anew. -/
theorem filter_writeEnds (cs : List Char) :
    (writeEnds ['\r', '\n'] cs).filter (· != '\r') = cs.filter (· != '\r') := by
  fun_induction writeEnds ['\r', '\n'] cs with
  | case1 => rfl
  | case2 cs ih => simpa using ih
  | case3 cs ih => simpa using ih
  | case4 c cs _ _ ih => rw [List.filter_cons, List.filter_cons, ih]

theorem flatMap_modifyHead {l : List (List Char)} (hl : l ≠ []) (c : Char) (terminator : List Char) :
    (l.modifyHead (c :: ·)).flatMap (· ++ terminator) = c :: l.flatMap (· ++ terminator) := by
  cases l with
  | nil => exact absurd rfl hl
  | cons line rest => rfl

theorem getLast?_cons_of_ne_nil (h : cs ≠ []) (c : Char) : (c :: cs).getLast? = cs.getLast? := by
  obtain ⟨d, ds, rfl⟩ := List.exists_cons_of_ne_nil h
  exact List.getLast?_cons_cons

/-- A line feed is a terminator, and what follows it is written on its own. -/
theorem flatMap_cut_feed
    (h : (cut cs).flatMap (· ++ terminator)
      = writeEnds terminator cs ++ if cs.getLast? = some '\n' then [] else terminator) :
    (cut ('\n' :: cs)).flatMap (· ++ terminator)
      = terminator ++ writeEnds terminator cs ++ if ('\n' :: cs).getLast? = some '\n' then [] else terminator := by
  rw [cut_feed]
  split
  · next hnil => simp [hnil, writeEnds]
  · next hne => rw [List.flatMap_cons, h, getLast?_cons_of_ne_nil hne, List.nil_append, List.append_assoc]

/-- Lines with a terminator behind each are the text with its line ends written in that way, and one more where the text
does not end in one. -/
theorem flatMap_cut (h : ReturnsInEnds cs) (terminator : List Char) :
    (cut cs).flatMap (· ++ terminator)
      = writeEnds terminator cs ++ if cs.getLast? = some '\n' then [] else terminator := by
  induction h with
  | nil => simp [cut, dropBreak, pieces, dropReturn, writeEnds]
  | feed rest ih => rw [flatMap_cut_feed ih, writeEnds_feed]
  | returnFeed rest ih => rw [cut_returnFeed, flatMap_cut_feed ih, writeEnds, List.getLast?_cons_cons]
  | @char c cs hc rest ih =>
    rw [cut_cons hc, flatMap_modifyHead (cut_ne_nil cs), ih, writeEnds_cons hc, List.cons_append]
    by_cases hcs : cs = []
    · subst hcs
      have hne : c ≠ '\n' := by
        rintro rfl
        cases hc
      simp [hne]
    · rw [getLast?_cons_of_ne_nil hcs]

end Scriptwright.Text
