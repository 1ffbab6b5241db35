/-
A text between double quotes. It is escaped in passes, one for each character
that keeps a meaning there, and the pass for backslashes comes before those that
write some; so the passes come to one, which looks at every character of the
text once (`escapeInPasses_eq`). A reader that takes a backslash and such a
character for the character, and stops at each one without a backslash, finds
the text again and stops only at the quote behind it (`readInside_escape`).
-/
import Scriptwright.Proofs.Shell.Exported

namespace Scriptwright.Shell

open Token

/-! ## Passes -/

/-- One pass over a text: each place of a character gets a backslash. -/
def escapePass (sign : Char) (text : String) : String :=
  Text.flatMap (fun c => if c = sign then ['\\', c] else [c]) text

/-- A text escaped pass by pass. Backslashes come first: the later passes write backslashes of their own. -/
def escapeInPasses (text : String) : String :=
  escapePass '\x60' (escapePass '$' (escapePass '\x22' (escapePass '\\' text)))

/-- The passes come to one. -/
theorem escapeInPasses_eq (text : String) :
    escapeInPasses text
      = Text.flatMap (fun c => if c ∈ ['\\', '\x22', '$', '\x60'] then ['\\', c] else [c]) text := by
  apply String.toList_injective
  simp only [escapeInPasses, escapePass, Text.toList_flatMap, List.flatMap_assoc]
  refine List.flatMap_congr fun c _ => ?_
  by_cases hslash : c = '\\'
  · subst hslash
    rfl
  by_cases hquote : c = '\x22'
  · subst hquote
    rfl
  by_cases hdollar : c = '$'
  · subst hdollar
    rfl
  by_cases hback : c = '\x60'
  · subst hback
    rfl
  simp [hslash, hquote, hdollar, hback]

theorem escape_eq_escapeInPasses (text : String) : escape text = escapeInPasses text := by
  rw [escapeInPasses_eq, escape]
  congr 1
  funext c
  simp [escapeChar, isLive, or_assoc]

/-! ## Reading -/

/-- What the start of a text between double quotes is read as, and how many characters that takes besides the first one.
At a quote, dollar sign or backquote that no backslash takes literally the reader does something. -/
def firstInside : Char → List Char → Meaning × Nat
  | '\\', c :: _ => if isTakenLiterally c then (.literal c, 1) else (.literal '\\', 0)
  | c, _ => if "\x22$\x60".toList.contains c then (.live c, 0) else (.literal c, 0)

/-- What a text from behind an opening double quote is read as. -/
def readInside (cs : List Char) : List Meaning :=
  Meaning.read firstInside cs

theorem readInside_nil : readInside [] = [] := rfl

/-- An escaped character is read as the character, whatever follows. -/
theorem readInside_escapeChar (c : Char) (rest : List Char) :
    readInside (escapeChar c ++ rest) = .literal c :: readInside rest := by
  unfold escapeChar
  split
  · next hlive =>
    have htaken : isTakenLiterally c = true := by
      simp only [isLive, Bool.or_eq_true, beq_iff_eq] at hlive
      rcases hlive with ((rfl | rfl) | rfl) | rfl <;> decide
    rw [List.cons_append, List.singleton_append, readInside, Meaning.read_cons, firstInside, if_pos htaken]
    rfl
  · next hlive =>
    simp only [isLive, Bool.or_eq_true, beq_iff_eq, not_or] at hlive
    obtain ⟨⟨⟨hslash, hquote⟩, hdollar⟩, hback⟩ := hlive
    have hfirst : firstInside c rest = (.literal c, 0) := by
      rw [firstInside, if_neg (by simp [hquote, hdollar, hback])]
      exact fun _ _ h => absurd h hslash
    rw [List.singleton_append, readInside, Meaning.read_cons, hfirst]
    rfl

/-- An escaped text is read as the text, and what follows it on its own. -/
theorem readInside_escape (text : String) (rest : List Char) :
    readInside ((escape text).toList ++ rest) = text.toList.map .literal ++ readInside rest := by
  rw [escape, Text.toList_flatMap]
  induction text.toList with
  | nil => rfl
  | cons c cs ih =>
    rw [List.flatMap_cons, List.append_assoc, readInside_escapeChar, ih]
    rfl

theorem readInside_quote (rest : List Char) : readInside ('\x22' :: rest) = .live '\x22' :: readInside rest := by
  rw [readInside, Meaning.read_cons]
  rfl

theorem escape_injective : Function.Injective escape := by
  intro a b h
  have hread := readInside_escape a []
  rw [h, readInside_escape, List.append_cancel_right_eq] at hread
  exact String.toList_injective (List.map_injective_iff.2 (fun _ _ => Meaning.literal.inj) hread).symm

/-- A word in double quotes stands for a text: behind its first character the reader finds the text, and stops for the
first time at a quote that is the last character. -/
def StandsFor (word text : String) : Prop :=
  ∃ cs, word.toList = '\x22' :: cs ∧ readInside cs = text.toList.map .literal ++ [.live '\x22']

theorem standsFor_escape (text : String) : StandsFor ("\x22" ++ escape text ++ "\x22") text := by
  refine ⟨(escape text).toList ++ ['\x22'], by simp, ?_⟩
  rw [readInside_escape, readInside_quote]
  rfl

/-! ## Arguments -/

/-- Escaping, pass by pass, is a single pass that puts one backslash before each backslash, double quote, dollar sign
and backquote. Read as the inside of double quotes the outcome is the text again, character by character and nothing
live among them, and the first live quote is the one put behind it; so no two texts are escaped to the same. An argument
that is put into quotes is then a word that stands for the argument, and stays one in a script if it holds no token. -/
theorem escape_lossless (text : String) :
    escape text = escapeInPasses text ∧
      (escape text).toList
        = (text.toList.flatMap fun c => if c ∈ ['\\', '\x22', '$', '\x60'] then ['\\', c] else [c]) ∧
      readInside (escape text).toList = text.toList.map .literal ∧
      StandsFor ("\x22" ++ escape text ++ "\x22") text ∧
      (∀ other, escape other = escape text → other = text) ∧
      (isBare text = false → StandsFor (argument text) text ∧
        ((∀ t, occursIn t text = false) → StandsFor (expand .unix (argument text)) text)) := by
  have hinside := readInside_escape text []
  rw [List.append_nil, readInside_nil, List.append_nil] at hinside
  refine ⟨escape_eq_escapeInPasses text, ?_, hinside, standsFor_escape text, fun other h => escape_injective h, ?_⟩
  · rw [escape_eq_escapeInPasses, escapeInPasses_eq, Text.toList_flatMap]
  · intro hbare
    have hword : StandsFor (argument text) text := by
      rw [argument, if_neg (by simp [hbare])]
      exact standsFor_escape text
    refine ⟨hword, fun hplain => ?_⟩
    rwa [expand_of_occursIn_eq_false fun t => by rw [occursIn_shellArgument, hplain t]]

/-- Backslashes in a row before a quote and before a dollar sign, and a backslash at the end. -/
theorem escape_lossless_of_slashes :
    StandsFor "\x22a\\\\\\\\\\\x22\\\\\\$b\\\\\x22" "a\\\\\x22\\$b\\" := by
  have hplain : ∀ t, occursIn t "a\\\\\x22\\$b\\" = false := by
    intro t
    cases t <;> decide
  obtain ⟨-, -, -, -, -, hargument⟩ := escape_lossless "a\\\\\x22\\$b\\"
  exact (hargument (by decide)).2 hplain

end Scriptwright.Shell
