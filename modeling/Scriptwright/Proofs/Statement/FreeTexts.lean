/-
Statements whose texts are free: text that is written as it is, comments and
payload lines. A text that is written as it is comes out with its line ends in
the spelling of the family and one more at its end if it has none there, and
otherwise unchanged (`render_interpret`). In all three a line feed may be
spelled as a token or stand there itself (`feed_tokens_are_line_feeds`).
-/
import Scriptwright.Proofs.Batch.Payload
import Scriptwright.Proofs.Token.FeedTokens

namespace Scriptwright

/-! ## Written texts -/

namespace Token

/-- Where a text holds no carriage return, they come into it with line ends only. -/
theorem returnsInEnds_expand (family : Family) {text : String} (h : '\r' ∉ text.toList) :
    Text.ReturnsInEnds (expand family text).toList := by
  rw [expand, String.toList_ofList]
  refine .flatMap fun p hp => ?_
  cases p with
  | token t =>
    rw [Piece.expand]
    by_cases ht : t = .lineFeed
    · subst ht
      cases family
      · exact .feed .nil
      · exact .returnFeed .nil
    · have hbreak : Text.hasBreak (t.text family) = false := by
        rw [← Bool.not_eq_true, hasBreak_text_iff]
        exact ht
      exact Text.returnsInEnds_of_plain fun c hc => by simpa using List.any_eq_false.1 hbreak c hc
  | plain c =>
    rw [Piece.expand]
    by_cases hc : c = '\n'
    · subst hc
      exact .feed .nil
    · have hreturn : c ≠ '\r' := by
        rintro rfl
        exact h (mem_of_plain_mem_scan hp)
      exact .char (by simp [Text.isBreakChar, hc, hreturn]) .nil

end Token

namespace Statement

variable {family : Family} {text : String}

theorem render_interpret_eq (family : Family) (text : String) :
    (interpret text).render family = .ok (Line.join family (interpretLines family text)) := by
  have hcount : checkSwitchCount family (interpret text).switchCount = .ok () := if_neg (by simp [switchCount])
  rw [render, hcount, lines]
  rfl

/-- A text that is not empty is written with the line ends of the family, and with one at its end. -/
theorem toList_join_interpretLines (h : '\r' ∉ text.toList) (hne : Token.expand family text ≠ "") :
    (Line.join family (interpretLines family text)).toList
      = Text.writeEnds family.lineTerminator.toList (Token.expand family text).toList
        ++ if (Token.expand family text).toList.getLast? = some '\n' then [] else family.lineTerminator.toList := by
  have hempty : (Token.expand family text).isEmpty = false := by simpa using hne
  have hlines : interpretLines family text
      = (Text.cut (Token.expand family text).toList).map fun cs => .code (String.ofList cs) := by
    rw [interpretLines, if_neg (by simp [hempty]), Text.lines_eq_cut, List.map_map]
    rfl
  rw [← Text.flatMap_cut (Token.returnsInEnds_expand family h), hlines, Line.join, String.toList_ofList,
    List.flatMap_map]
  simp [Line.text]

/-- A text without carriage returns is written as it is once its tokens are replaced. Nothing is written for an empty
one. A shell script has the text itself, and a line feed behind it unless it ends in one; a batch file has the text
with each line end whole, those of tokens and line feeds that stand there themselves, and a whole line end behind it
unless it ends in one. No other character is changed, put in or taken out. -/
theorem render_interpret (h : '\r' ∉ text.toList) :
    (∀ family, Token.expand family text = "" → (interpret text).render family = .ok "") ∧
      (∀ written, Token.expand .unix text = written → written ≠ "" →
        (interpret text).render .unix
          = .ok (if written.toList.getLast? = some '\n' then written else written ++ "\n")) ∧
      ∀ written, Token.expand .windows text = written → written ≠ "" →
        (interpret text).render .windows = .ok (String.ofList (Text.writeEnds ['\r', '\n'] written.toList ++
          if written.toList.getLast? = some '\n' then [] else ['\r', '\n'])) ∧
        Text.ReturnsInEnds written.toList ∧
        (Text.writeEnds ['\r', '\n'] written.toList).filter (· != '\r') = written.toList.filter (· != '\r') := by
  refine ⟨fun family hempty => ?_, ?_, ?_⟩
  · rw [render_interpret_eq, interpretLines, hempty]
    rfl
  · rintro written rfl hne
    have hreturn : '\r' ∉ (Token.expand .unix text).toList :=
      Token.not_mem_expand (fun t => by cases t <;> decide) h
    have hjoin : Line.join .unix (interpretLines .unix text)
        = if (Token.expand .unix text).toList.getLast? = some '\n' then Token.expand .unix text
          else Token.expand .unix text ++ "\n" := by
      apply String.toList_injective
      rw [toList_join_interpretLines h hne, Family.lineTerminator, show "\n".toList = ['\n'] from rfl,
        Text.writeEnds_of_not_mem hreturn]
      split <;> simp
    rw [render_interpret_eq, hjoin]
  · rintro written rfl hne
    have hjoin := toList_join_interpretLines h hne
    refine ⟨?_, Token.returnsInEnds_expand .windows h, Text.filter_writeEnds _⟩
    rw [render_interpret_eq, ← String.ofList_toList (s := Line.join .windows _), hjoin]
    rfl

/-- Blank lines at both ends, line ends of both spellings, and none at the end. -/
theorem render_interpret_of_mixture :
    (interpret "\n\x7blf\x7da\n\x7btmp\x7d").render .unix = .ok "\n\na\n/tmp\n" ∧
      (interpret "\n\x7blf\x7da\n\n").render .windows = .ok "\r\n\r\na\r\n\r\n" ∧
        (interpret "\x7bvarr\x7d").render .unix = .ok "" := by
  have hunix : Token.expand .unix "\n\x7blf\x7da\n\x7btmp\x7d" = "\n\na\n/tmp" := by decide
  have hwindows : Token.expand .windows "\n\x7blf\x7da\n\n" = "\n\r\na\n\n" := by decide
  have hempty : Token.expand .unix "\x7bvarr\x7d" = "" := by decide
  refine ⟨?_, ?_, ?_⟩
  · rw [(render_interpret (by decide)).2.1 _ hunix (by decide)]
    rfl
  · rw [((render_interpret (by decide)).2.2 _ hwindows (by decide)).1]
    rfl
  · exact (render_interpret (by decide)).1 .unix hempty

/-! ## Line feeds as tokens -/

section

open Token

theorem lines_writeFeeds (h : '\r' ∉ text.toList) (family : Family) :
    Text.lines (expand family (writeFeeds text)) = Text.lines (expand family text) := by
  have hlines := lines_expand_writeFeeds (Text.keeps_singleton _) (Text.keeps_singleton _) h family
  rwa [flatMap_singleton_eq_id] at hlines

/-- A batch file escapes a payload line first; its escapes are no line ends. -/
theorem lines_escapeEcho_writeFeeds (h : '\r' ∉ text.toList) (family : Family) :
    Text.lines (expand family (Batch.escapeEcho (writeFeeds text)))
      = Text.lines (expand family (Batch.escapeEcho text)) := by
  rw [escapeEcho_eq_flatMap, escapeEcho_eq_flatMap]
  exact lines_expand_writeFeeds keepsTokens_escapeEcho
    (Batch.keepsBreaks_escapeChar.comp Batch.keepsBreaks_percentChar) h family

theorem isEmpty_writeFeeds (h : '\r' ∉ text.toList) (family : Family) :
    (expand family (writeFeeds text)).isEmpty = (expand family text).isEmpty := by
  have hempty : ∀ text : String, (expand family text).isEmpty = true
      ↔ (scan text.toList).flatMap (Piece.write family fun c => [c]) = [] := by
    intro text
    have htext := KeepsTokens.toList_expand (Text.keeps_singleton _) family text
    rw [flatMap_singleton_eq_id] at htext
    rw [← htext]
    simp
  rw [Bool.eq_iff_iff, hempty, hempty, scan_writeFeeds,
    flatMap_write_feed_eq_nil_iff (Text.keeps_singleton _) family (plain_return_not_mem_scan h)]

end

theorem interpretLines_writeFeeds (h : '\r' ∉ text.toList) (family : Family) :
    interpretLines family (Token.writeFeeds text) = interpretLines family text := by
  simp only [interpretLines, isEmpty_writeFeeds h, lines_writeFeeds h]

theorem commentLines_writeFeeds (h : '\r' ∉ text.toList) (family : Family) :
    commentLines family (Token.writeFeeds text) = commentLines family text := by
  rw [commentLines, commentLines, lines_writeFeeds h]

/-- One line of a payload comes out the same, and so does the whole, be it lines or a refusal. -/
theorem appendFileLines_writeFeeds (h : '\r' ∉ text.toList) (family : Family) (path : String)
    (before behind : List String) :
    appendFileLines family path (before ++ Token.writeFeeds text :: behind)
      = appendFileLines family path (before ++ text :: behind) := by
  cases family with
  | unix =>
    have hpayload : payloadLines .unix (before ++ Token.writeFeeds text :: behind)
        = payloadLines .unix (before ++ text :: behind) := by
      simp only [payloadLines, List.flatMap_append, List.flatMap_cons, lines_writeFeeds h]
    rw [appendFileLines, hpayload]
    rfl
  | windows =>
    have hpayload : payloadLines .windows ((before ++ Token.writeFeeds text :: behind).map Batch.escapeEcho)
        = payloadLines .windows ((before ++ text :: behind).map Batch.escapeEcho) := by
      simp only [payloadLines, List.map_append, List.map_cons, List.flatMap_append, List.flatMap_cons,
        lines_escapeEcho_writeFeeds h]
    rw [appendFileLines, hpayload]
    rfl

/-- Take a text without carriage returns, and write a line feed for each token in it that stands for one: of its other
pieces none is changed. In either family the new text then has the lines of the old one, as text that is written as it
is, as a comment, and as any one line of a payload that both times is accepted, or both are refused for the same
reason. -/
theorem feed_tokens_are_line_feeds (h : '\r' ∉ text.toList) (family : Family) :
    Token.scan (Token.writeFeeds text).toList = (Token.scan text.toList).map Token.Piece.feed ∧
      (interpret (Token.writeFeeds text)).lines family = (interpret text).lines family ∧
      (comment (Token.writeFeeds text)).lines family = (comment text).lines family ∧
      ∀ path before behind s s', makeAppendFile path (before ++ text :: behind) = .ok s →
        makeAppendFile path (before ++ Token.writeFeeds text :: behind) = .ok s' →
          s'.lines family = s.lines family := by
  refine ⟨Token.scan_writeFeeds text, ?_, ?_, ?_⟩
  · rw [lines, lines, interpretLines_writeFeeds h]
  · rw [lines, lines, commentLines_writeFeeds h]
  · intro path before behind s s' hs hs'
    obtain ⟨rfl, -⟩ := makeAppendFile_eq_ok_iff.1 hs
    obtain ⟨rfl, -⟩ := makeAppendFile_eq_ok_iff.1 hs'
    rw [lines, lines, appendFileLines_writeFeeds h]

/-- Two tokens in a row, one in another name, one behind an open brace and one at the end; and a payload line in which
the tokens part off the word that ends a here-document. -/
theorem feed_tokens_are_line_feeds_of_names :
    (comment "a\x7blf\x7d\x7blf\x7d\x7bt\x7blf\x7dmp\x7d\x7b\x7blf\x7d").lines .windows
        = (comment "a\n\n\x7bt\nmp\x7d\x7b\n").lines .windows ∧
      (appendFile "f" ["a", "x\x7blf\x7dEND_OF_FILE\x7blf\x7d"]).lines .unix
        = (appendFile "f" ["a", "x\nEND_OF_FILE\n"]).lines .unix := by
  constructor
  · have hreturn : '\r' ∉ "a\x7blf\x7d\x7blf\x7d\x7bt\x7blf\x7dmp\x7d\x7b\x7blf\x7d".toList := by decide
    obtain ⟨-, -, hcomment, -⟩ := feed_tokens_are_line_feeds hreturn .windows
    rw [← hcomment]
    rfl
  · have hreturn : '\r' ∉ "x\x7blf\x7dEND_OF_FILE\x7blf\x7d".toList := by decide
    obtain ⟨-, -, -, hpayload⟩ := feed_tokens_are_line_feeds hreturn .unix
    exact (hpayload "f" ["a"] [] _ _ (by decide) (by decide)).symm

end Statement
end Scriptwright
