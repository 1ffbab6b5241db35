/-
Both families write the same lines at the end of a file. A shell script cuts a
payload into lines as it stands; a batch file escapes it first and cuts it
afterwards, and since escaping leaves line breaks alone, it is cut at the same
places (`lines_escapeEcho`). The escaped lines are undone to the payload lines
(`unescapeEcho_escapeEcho`), and each has an `echo` of its own.
-/
import Mathlib.Data.List.Forall2
import Scriptwright.Proofs.Batch.Echo
import Scriptwright.Proofs.Text.Lines

namespace Scriptwright.Batch

open Statement

/-! ## Undoing -/

/-- A text with its carets taken off: each stands for the character behind it. -/
def uncaret : List Char → List Char
  | [] => []
  | '^' :: c :: cs => c :: uncaret cs
  | c :: cs => c :: uncaret cs

theorem uncaret_cons {c : Char} (h : c ≠ '^') (cs : List Char) : uncaret (c :: cs) = c :: uncaret cs := by
  rw [uncaret]
  exact fun _ _ hc _ => h hc

theorem uncaret_flatMap_escapeChar (cs : List Char) : uncaret (cs.flatMap escapeChar) = cs := by
  induction cs with
  | nil => rfl
  | cons c cs ih =>
    rw [List.flatMap_cons]
    cases hoperator : isOperator c with
    | true => rw [escapeChar, if_pos hoperator, List.cons_append, List.singleton_append, uncaret, ih]
    | false =>
      have hcaret : c ≠ '^' := by
        rintro rfl
        revert hoperator
        decide
      rw [escapeChar, if_neg (by simp [hoperator]), List.singleton_append, uncaret_cons hcaret, ih]

/-- A text as it was before it was escaped: percent signs first, then carets. -/
def unescapeEcho (text : String) : String :=
  String.ofList (uncaret (undouble text.toList))

theorem unescapeEcho_escapeEcho (text : String) : unescapeEcho (escapeEcho text) = text := by
  have hundoubled : undouble ((escapePercent (escape text)).toList ++ []) = (escape text).toList ++ undouble [] :=
    takesPercent_undouble.escapePercent (escape text) []
  rw [List.append_nil, undouble, List.append_nil] at hundoubled
  rw [unescapeEcho, escapeEcho, hundoubled, escape, Text.toList_flatMap, uncaret_flatMap_escapeChar,
    String.ofList_toList]

/-! ## Cutting -/

theorem keepsBreaks_escapeChar : Text.KeepsBreaks escapeChar :=
  Text.keeps_of fun c h => by
    have hc : Text.isBreakChar c = false := by
      rw [← Bool.not_eq_true, Text.isBreakChar, Bool.or_eq_true, beq_iff_eq, beq_iff_eq]
      rintro (rfl | rfl) <;> revert h <;> decide
    have hcaret : Text.isBreakChar '^' = false := by decide
    simp [hc, hcaret]

theorem keepsBreaks_percentChar : Text.KeepsBreaks percentChar :=
  Text.keeps_of fun c h => by
    have hpercent : Text.isBreakChar '%' = false := by decide
    simp [h, hpercent]

/-- An escaped text has the lines of the text, each escaped. -/
theorem lines_escapeEcho (text : String) : Text.lines (escapeEcho text) = (Text.lines text).map escapeEcho := by
  rw [escapeEcho, escapePercent, keepsBreaks_percentChar.lines_flatMap, escape, keepsBreaks_escapeChar.lines_flatMap,
    List.map_map]
  rfl

/-- A payload in which no token stands has the same lines for both families, escaped for a batch file. -/
theorem payloadLines_escapeEcho {payload : List String} (h : ∀ line ∈ payload, ∀ t, Token.occursIn t line = false) :
    payloadLines .windows (payload.map escapeEcho) = (payloadLines .unix payload).map escapeEcho := by
  rw [payloadLines, payloadLines, List.flatMap_map, List.map_flatMap]
  refine List.flatMap_congr fun line hline => ?_
  have hplain := h line hline
  have hescaped : ∀ t, Token.occursIn t (escapeEcho line) = false := fun t => by rw [Token.occursIn_escapeEcho, hplain]
  rw [Token.expand_of_occursIn_eq_false hescaped, Token.expand_of_occursIn_eq_false hplain, lines_escapeEcho]

/-! ## The same lines -/

/-- A line prints an escaped text, bare behind its `echo` or in a parenthesis of its own, and sends it to a target. No
digit stands before the redirection, which would be the number of a stream. -/
def AppendsTo (target text : String) (l : Line) : Prop :=
  ∃ printing escaped : String, l = .code (printing ++ ">>" ++ target) ∧
    (printing = "echo(" ++ escaped ∨ printing = "(echo(" ++ escaped ++ ")") ∧
    unescapeEcho escaped = text ∧ endsInDigit printing = false

theorem endsInDigit_append {a b : String} (ha : endsInDigit a = false) (hb : endsInDigit b = false) :
    endsInDigit (a ++ b) = false := by
  rw [endsInDigit] at ha hb ⊢
  rw [String.toList_append, List.getLast?_append]
  cases hlast : b.toList.getLast? with
  | none => exact ha
  | some c =>
    rw [hlast] at hb
    exact hb

theorem appendsTo_echoLine (target text : String) : AppendsTo target text (echoLine target (escapeEcho text)) := by
  have hecho : endsInDigit "echo(" = false := by decide
  have hparen : endsInDigit ")" = false := by decide
  cases hdigit : endsInDigit (escapeEcho text) with
  | true =>
    refine ⟨"(echo(" ++ escapeEcho text ++ ")", escapeEcho text, ?_, .inr rfl, unescapeEcho_escapeEcho text, ?_⟩
    · have hclosing : ")>>" = ")" ++ ">>" := by decide
      rw [echoLine, if_pos hdigit, hclosing, ← String.append_assoc]
    · rw [endsInDigit, String.toList_append, List.getLast?_append]
      exact hparen
  | false =>
    refine ⟨"echo(" ++ escapeEcho text, escapeEcho text, ?_, .inl rfl, unescapeEcho_escapeEcho text, ?_⟩
    · rw [echoLine, if_neg (by simp [hdigit])]
    · exact endsInDigit_append hecho hdigit

/-- What a shell script has in its here-document, a batch file appends line by line, all to one target, if no token
stands in the payload: as many lines, and each undone to the line it stands for, line breaks of every kind cut the
same way. -/
theorem appends_same_lines {path : String} {payload : List String} {s : Statement} {shell : List Line}
    (hs : makeAppendFile path payload = .ok s) (ht : ∀ line ∈ payload, ∀ t, Token.occursIn t line = false)
    (hshell : s.lines .unix = .ok shell) :
    ∃ start written batch, shell = .code start :: written.map .literal ++ [.literal hereDelimiter] ∧
      s.lines .windows = .ok batch ∧
      List.Forall₂ (AppendsTo ("\x22" ++ Token.expand .windows path ++ "\x22")) written batch := by
  obtain ⟨rfl, -, -, -⟩ := makeAppendFile_eq_ok_iff.1 hs
  rw [lines] at hshell
  obtain ⟨-, hwritten⟩ := appendFileLines_unix_eq_ok_iff.1 hshell
  have hbatch : (appendFile path payload).lines .windows = .ok ((payloadLines .windows (payload.map escapeEcho)).map
      (echoLine ("\x22" ++ Token.expand .windows path ++ "\x22"))) := by rw [lines, appendFileLines]
  refine ⟨_, payloadLines .unix payload, _, hwritten, hbatch, ?_⟩
  rw [payloadLines_escapeEcho ht, List.map_map, List.forall₂_map_right_iff]
  refine List.forall₂_same.2 fun text _ => ?_
  rw [Function.comp_apply]
  exact appendsTo_echoLine _ text

/-- A break of either kind at the end and inside a line, a return that is none, percent signs and operators. -/
theorem appends_same_lines_of_breaks :
    ∃ batch, (Statement.appendFile "out.txt" ["50% & <x>\x0d\ncount 2\n\n", "a\x0db^"]).lines .windows = .ok batch ∧
      List.Forall₂ (AppendsTo "\x22out.txt\x22") ["50% & <x>", "count 2", "", "a\x0db^"] batch := by
  have hs : makeAppendFile "out.txt" ["50% & <x>\x0d\ncount 2\n\n", "a\x0db^"]
      = .ok (.appendFile "out.txt" ["50% & <x>\x0d\ncount 2\n\n", "a\x0db^"]) := by decide
  have ht : ∀ line ∈ ["50% & <x>\x0d\ncount 2\n\n", "a\x0db^"], ∀ t, Token.occursIn t line = false := by
    intro line hline t
    simp only [List.mem_cons, List.not_mem_nil, or_false] at hline
    rcases hline with rfl | rfl <;> cases t <;> decide
  have hshell : (Statement.appendFile "out.txt" ["50% & <x>\x0d\ncount 2\n\n", "a\x0db^"]).lines .unix
      = .ok (.code "cat >> out.txt <<\x27END_OF_FILE\x27"
          :: ["50% & <x>", "count 2", "", "a\x0db^"].map .literal ++ [.literal hereDelimiter]) := by decide
  obtain ⟨start, written, batch, hwritten, hbatch, hsame⟩ := appends_same_lines hs ht hshell
  have hliterals := List.append_cancel_right (List.cons.inj hwritten).2
  have hinjective : Function.Injective Line.literal := fun a b h => Line.literal.inj h
  rw [← List.map_injective_iff.2 hinjective hliterals] at hsame
  exact ⟨batch, hbatch, hsame⟩

end Scriptwright.Batch
