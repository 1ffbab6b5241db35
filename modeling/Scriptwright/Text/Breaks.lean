/-
Line breaks in a text: whether there is one, and the cut of a text into lines.
A line ends at a line feed; a carriage return right before the line feed, or at
the very end of a line, belongs to the break and not to the line.
-/
namespace Scriptwright.Text

/-- Whether a character is a line feed or a carriage return. -/
def isBreakChar (c : Char) : Bool :=
  c == '\n' || c == '\r'

/-- Whether a text holds a line feed or a carriage return. -/
def hasBreak (text : String) : Bool :=
  text.toList.any isBreakChar

/-- The pieces of a text between the places of a separator: one more than there are places. -/
def pieces (separator : Char) : List Char → List (List Char)
  | [] => [[]]
  | c :: cs =>
    if c = separator then [] :: pieces separator cs
    else match pieces separator cs with
      | [] => [[c]]
      | piece :: rest => (c :: piece) :: rest

/-- A text less one line break at its end. -/
def dropBreak : List Char → List Char
  | [] => []
  | ['\n'] => []
  | ['\r', '\n'] => []
  | c :: cs => c :: dropBreak cs

/-- A text less one carriage return at its end. -/
def dropReturn : List Char → List Char
  | [] => []
  | ['\r'] => []
  | c :: cs => c :: dropReturn cs

/-- The lines of a text. One break at the end is ignored, and an empty text is one empty line. -/
def lines (text : String) : List String :=
  (pieces '\n' (dropBreak text.toList)).map fun piece => String.ofList (dropReturn piece)

theorem pieces_ne_nil (separator : Char) (cs : List Char) : pieces separator cs ≠ [] := by
  cases cs with
  | nil => simp [pieces]
  | cons c cs =>
    simp only [pieces]
    split
    · simp
    · split <;> simp

theorem lines_ne_nil (text : String) : lines text ≠ [] := by
  simp [lines, pieces_ne_nil]

/-- No piece holds the separator. -/
theorem not_mem_of_mem_pieces {separator : Char} {cs piece : List Char} (h : piece ∈ pieces separator cs) :
    separator ∉ piece := by
  induction cs generalizing piece with
  | nil => simp_all [pieces]
  | cons c cs ih =>
    simp only [pieces] at h
    split at h
    · rcases List.mem_cons.1 h with rfl | h
      · simp
      · exact ih h
    · next hc =>
      cases hp : pieces separator cs with
      | nil => exact absurd hp (pieces_ne_nil separator cs)
      | cons first rest =>
        rw [hp] at h ih
        rcases List.mem_cons.1 h with rfl | h
        · simp [Ne.symm hc, ih (List.mem_cons_self ..)]
        · exact ih (List.mem_cons_of_mem _ h)

theorem mem_of_mem_dropReturn {c : Char} {cs : List Char} (h : c ∈ dropReturn cs) : c ∈ cs := by
  fun_induction dropReturn cs with
  | case1 => exact h
  | case2 => simp at h
  | case3 d cs _ ih =>
    rcases List.mem_cons.1 h with rfl | h
    · exact List.mem_cons_self ..
    · exact List.mem_cons_of_mem _ (ih h)

theorem mem_of_mem_dropBreak {c : Char} {cs : List Char} (h : c ∈ dropBreak cs) : c ∈ cs := by
  fun_induction dropBreak cs with
  | case1 => exact h
  | case2 => simp at h
  | case3 => simp at h
  | case4 d cs _ _ ih =>
    rcases List.mem_cons.1 h with rfl | h
    · exact List.mem_cons_self ..
    · exact List.mem_cons_of_mem _ (ih h)

theorem mem_of_mem_pieces {separator c : Char} {cs piece : List Char} (h : piece ∈ pieces separator cs)
    (hc : c ∈ piece) : c ∈ cs := by
  induction cs generalizing piece with
  | nil => simp_all [pieces]
  | cons d cs ih =>
    simp only [pieces] at h
    split at h
    · rcases List.mem_cons.1 h with rfl | h
      · simp at hc
      · exact List.mem_cons_of_mem _ (ih h hc)
    · cases hp : pieces separator cs with
      | nil => exact absurd hp (pieces_ne_nil separator cs)
      | cons first rest =>
        rw [hp] at h ih
        rcases List.mem_cons.1 h with rfl | h
        · rcases List.mem_cons.1 hc with rfl | hc
          · exact List.mem_cons_self ..
          · exact List.mem_cons_of_mem _ (ih (List.mem_cons_self ..) hc)
        · exact List.mem_cons_of_mem _ (ih (List.mem_cons_of_mem _ h) hc)

/-- A line holds characters of its text only. -/
theorem mem_of_mem_lines {text line : String} {c : Char} (h : line ∈ lines text) (hc : c ∈ line.toList) :
    c ∈ text.toList := by
  simp only [lines, List.mem_map] at h
  obtain ⟨piece, hp, rfl⟩ := h
  simp only [String.toList_ofList] at hc
  exact mem_of_mem_dropBreak (mem_of_mem_pieces hp (mem_of_mem_dropReturn hc))

/-- No line holds a line feed. -/
theorem not_mem_of_mem_lines {text line : String} (h : line ∈ lines text) : '\n' ∉ line.toList := by
  simp only [lines, List.mem_map] at h
  obtain ⟨piece, hp, rfl⟩ := h
  intro hm
  simp only [String.toList_ofList] at hm
  exact not_mem_of_mem_pieces hp (mem_of_mem_dropReturn hm)

theorem pieces_of_not_mem {separator : Char} {cs : List Char} (h : separator ∉ cs) : pieces separator cs = [cs] := by
  induction cs with
  | nil => rfl
  | cons c cs ih =>
    simp only [List.mem_cons, not_or] at h
    rw [pieces, if_neg (Ne.symm h.1), ih h.2]

theorem dropReturn_of_not_mem {cs : List Char} (h : '\r' ∉ cs) : dropReturn cs = cs := by
  fun_induction dropReturn cs with
  | case1 => rfl
  | case2 => simp at h
  | case3 c cs _ ih => rw [ih fun hm => h (List.mem_cons_of_mem _ hm)]

theorem dropBreak_of_not_mem {cs : List Char} (h : '\n' ∉ cs) : dropBreak cs = cs := by
  fun_induction dropBreak cs with
  | case1 => rfl
  | case2 => simp at h
  | case3 => simp at h
  | case4 c cs _ _ ih => rw [ih fun hm => h (List.mem_cons_of_mem _ hm)]

/-- A text without a break is one line. -/
theorem lines_of_not_mem {text : String} (hn : '\n' ∉ text.toList) (hr : '\r' ∉ text.toList) :
    lines text = [text] := by
  rw [lines, dropBreak_of_not_mem hn, pieces_of_not_mem hn, List.map_singleton, dropReturn_of_not_mem hr,
    String.ofList_toList]

example : lines "a\r\nb\n\n" = ["a", "b", ""] := by decide
example : lines "" = [""] := by decide

end Scriptwright.Text
