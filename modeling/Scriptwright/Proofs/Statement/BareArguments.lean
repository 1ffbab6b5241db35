/-
How a shell reads an argument that is written without quotes. No character of a
bare argument is active, so the only thing that a shell can make of it is what
it makes of its braces. It is therefore read as itself exactly when no braces
in it enclose a comma or a range (`bare_argument_read_iff`); one in which some
do is read as other words, though each of its characters is harmless.
-/
import Scriptwright.Proofs.Shell.Braces
import Scriptwright.Proofs.Statement.CallWords
import Scriptwright.Proofs.Statement.Lines
import Scriptwright.Proofs.Statement.Made

namespace Scriptwright

open Token

/-- No character that may stand in a bare argument is active. -/
theorem isActive_of_isBareChar {c : Char} (h : Shell.isBareChar c = true) : Shell.isActive c = false := by
  have hspecial : Shell.isSpecial c = false := by
    rw [← Bool.not_eq_true]
    intro hc
    rw [Shell.eq_false_of_isSpecial (p := Shell.isBareChar) (by decide) hc] at h
    cases h
  have hquote : c ≠ '\x27' := by
    rintro rfl
    revert h
    decide
  have hslash : c ≠ '\\' := (isBareChar_sound h).2.1
  simp [Shell.isActive, hspecial, hquote, hslash]

/-- A bare argument without tokens is written as it is, in the line of any call and as the path that any payload is
appended to. No character of it is active. It is read as itself exactly when it has no expression, as it has none if
no braces in it enclose a comma or a range. -/
theorem bare_argument_read_iff {arg : String} (hbare : Shell.isBare arg = true)
    (htokens : ∀ t, occursIn t arg = false) :
    expand .unix (Shell.argument arg) = arg ∧
      (∀ c ∈ arg.toList, Shell.isActive c = false) ∧
      (Shell.bareWords? arg = some [arg] ↔ Shell.hasExpression true arg.toList = false) ∧
      ((∀ before inner behind, arg.toList = before ++ '\x7b' :: (inner ++ '\x7d' :: behind) →
          ',' ∉ inner ∧ Shell.range? inner = none) → Shell.bareWords? arg = some [arg]) ∧
      (∀ function before after s, Statement.makeCall function (before ++ arg :: after) = .ok s →
        ∃ line, s.lines .unix = .ok [.code line] ∧
          line.toList = function.toList ++ before.flatMap (fun other => ' ' :: (writtenArgument .unix other).toList)
            ++ ' ' :: arg.toList ++ after.flatMap fun other => ' ' :: (writtenArgument .unix other).toList) ∧
      (∀ payload s ls, Statement.makeAppendFile arg payload = .ok s → s.lines .unix = .ok ls →
        ls.head? = some (.code ("cat >> " ++ arg ++ " <<\x27" ++ hereDelimiter ++ "\x27"))) := by
  have hwritten : expand .unix (Shell.argument arg) = arg := by
    rw [Shell.argument, if_pos hbare, expand_of_occursIn_eq_false htokens]
  have hplain : ∀ c ∈ arg.toList, Shell.isActive c = false :=
    fun c hc => isActive_of_isBareChar (isBareChar_of_mem hbare hc)
  have hne : arg.toList ≠ [] := by
    rw [ne_eq, String.toList_eq_nil_iff]
    rintro rfl
    cases hbare
  have hread := Shell.bareWords?_eq_iff hne hplain
  refine ⟨hwritten, hplain, hread, fun hnone => hread.2 ?_, fun function before after s hs => ?_, ?_⟩
  · rw [← Bool.not_eq_true]
    intro hexpression
    obtain ⟨before, inner, behind, hsplit, hacts⟩ := Shell.exists_of_hasExpression hexpression
    obtain ⟨hcomma, hrange⟩ := hnone before inner behind hsplit
    simp [hcomma, hrange] at hacts
  · obtain ⟨rfl, hname, -⟩ := Statement.makeCall_eq_ok_iff.1 hs
    refine ⟨_, rfl, ?_⟩
    have harg : writtenArgument .unix arg = arg := hwritten
    rw [toList_expand_callTemplate .unix hname, List.flatMap_append, List.flatMap_cons, harg]
    simp [callStart]
  · intro payload s ls hs hls
    obtain ⟨rfl, -⟩ := Statement.makeAppendFile_eq_ok_iff.1 hs
    rw [Statement.lines] at hls
    obtain ⟨-, rfl⟩ := appendFileLines_unix_eq_ok_iff.1 hls
    rw [hwritten]
    rfl

/-- Braces that enclose no comma and no range, and separators outside all braces. -/
theorem bare_argument_read_of_separators :
    Shell.isBare "a,\x7bb\x7d..\x7bnope\x7d\x7b1.2\x7d" = true ∧
      Shell.bareWords? "a,\x7bb\x7d..\x7bnope\x7d\x7b1.2\x7d" = some ["a,\x7bb\x7d..\x7bnope\x7d\x7b1.2\x7d"] := by
  have hbare : Shell.isBare "a,\x7bb\x7d..\x7bnope\x7d\x7b1.2\x7d" = true := by decide
  have htokens : ∀ t, occursIn t "a,\x7bb\x7d..\x7bnope\x7d\x7b1.2\x7d" = false := by
    intro t
    cases t <;> decide
  exact ⟨hbare, (bare_argument_read_iff hbare htokens).2.2.1.2 (by cbv)⟩

/-- Two alternatives in braces need no quotes, and are read as two arguments. -/
theorem alternatives_split_argument :
    let s := Statement.call "f" ["\x7ba,b\x7d"]
    Statement.makeCall "f" ["\x7ba,b\x7d"] = .ok s ∧ Shell.isBare "\x7ba,b\x7d" = true ∧
      (∀ t, occursIn t "\x7ba,b\x7d" = false) ∧ s.lines .unix = .ok [.code "f \x7ba,b\x7d"] ∧
      Shell.bareWords? "\x7ba,b\x7d" = some ["a", "b"] := by
  refine ⟨by decide, by decide, fun t => ?_, by decide, by cbv⟩
  cases t <;> decide

end Scriptwright
