/-
Which line ends the text of a batch file holds. A line feed comes into it behind
each line, and inside a line only from a token; both times it is written with a
carriage return in front. So no text that renders for a batch file, of a
statement or of a script, holds a line feed alone (`feeds_follow_returns`).
-/
import Scriptwright.Proofs.Script.Lines
import Scriptwright.Proofs.Statement.LineFeeds

namespace Scriptwright

/-! ## Texts -/

namespace Text

/-- Every line feed comes right behind a carriage return. -/
def FeedsFollowReturns (cs : List Char) : Prop :=
  ∀ before after, cs = before ++ '\n' :: after → before.getLast? = some '\r'

theorem FeedsFollowReturns.of_not_mem {cs : List Char} (h : '\n' ∉ cs) : FeedsFollowReturns cs := by
  rintro before after rfl
  simp at h

theorem FeedsFollowReturns.nil : FeedsFollowReturns [] := .of_not_mem (by simp)

theorem FeedsFollowReturns.lineBreak : FeedsFollowReturns ['\r', '\n'] := by
  intro before after h
  match before with
  | [] => simp at h
  | [c] =>
    obtain ⟨rfl, -⟩ : '\r' = c ∧ after = [] := by simpa using h
    rfl
  | [c, d] => simp at h
  | c :: d :: e :: before => simp at h

/-- Texts put together hold no line feed alone if neither of them does: the second does not start with one. -/
theorem FeedsFollowReturns.append {a b : List Char} (ha : FeedsFollowReturns a) (hb : FeedsFollowReturns b) :
    FeedsFollowReturns (a ++ b) := by
  intro before after h
  rcases List.append_eq_append_iff.1 h with ⟨rest, hbefore, hrest⟩ | ⟨rest, ha', hrest⟩
  · have hlast := hb rest after hrest
    rw [hbefore, List.getLast?_append, hlast]
    rfl
  · cases rest with
    | nil =>
      have := hb [] after hrest.symm
      simp at this
    | cons c rest =>
      obtain ⟨rfl, -⟩ := List.cons.inj hrest
      exact ha before rest ha'

theorem FeedsFollowReturns.flatMap {α : Type} {f : α → List Char} {xs : List α}
    (h : ∀ x ∈ xs, FeedsFollowReturns (f x)) : FeedsFollowReturns (xs.flatMap f) :=
  flatMap_of_append .nil .append h

/-- In a text on one line, a token for a line feed is written as a whole line end. -/
theorem FeedsFollowReturns.expand {text : String} (h : '\n' ∉ text.toList) :
    FeedsFollowReturns (Token.expand .windows text).toList := by
  rw [Token.expand, String.toList_ofList]
  refine .flatMap fun p hp => ?_
  cases p with
  | token t =>
    by_cases ht : t = .lineFeed
    · subst ht
      exact .lineBreak
    · exact .of_not_mem fun hm => ht (Token.lineFeed_mem_text_iff.1 hm)
  | plain c =>
    refine .of_not_mem fun hm => ?_
    rw [Token.Piece.expand, List.mem_singleton] at hm
    exact h (Token.mem_of_plain_mem_scan (hm ▸ hp))

end Text

/-! ## Lines -/

namespace Line

/-- No line holds a line feed alone. -/
def Returning (ls : List Line) : Prop :=
  ∀ l ∈ ls, Text.FeedsFollowReturns l.text.toList

theorem Returning.of_anyBroken {ls : List Line} (h : anyBroken ls = false) : Returning ls :=
  fun l hl => .of_not_mem (anyBroken_eq_false_iff.1 h l hl)

theorem Returning.singleton {l : Line} (h : Text.FeedsFollowReturns l.text.toList) : Returning [l] := by
  intro l' hl'
  rw [List.mem_singleton.1 hl']
  exact h

/-- No step and no layout of a batch file brings a line feed in. -/
theorem keeps_feedsFollowReturns : Family.windows.Keeps '\n' fun text => Text.FeedsFollowReturns text.toList where
  foreign := rfl
  step text h := by
    rw [String.toList_append]
    exact (Text.FeedsFollowReturns.of_not_mem (by decide)).append h
  plain _ h := .of_not_mem h

/-- Each line of a batch file is written with a whole line end behind it. -/
theorem Returning.join {ls : List Line} (h : Returning ls) :
    Text.FeedsFollowReturns (Line.join .windows ls).toList := by
  rw [Line.join, String.toList_ofList]
  exact .flatMap fun l hl => (h l hl).append .lineBreak

end Line

open Line

/-! ## Leaves -/

theorem returning_appendFileLines {path : String} {payload : List String} {ls : List Line}
    (hp : isQuoteUnsafe path = false) (h : appendFileLines .windows path payload = .ok ls) : Returning ls := by
  cases h
  intro l hl
  obtain ⟨line, hline, rfl⟩ := List.mem_map.1 hl
  have hpath := Text.FeedsFollowReturns.expand (isQuoteUnsafe_eq_false_iff.1 hp).2.1
  have hquote : Text.FeedsFollowReturns "\"".toList := .of_not_mem (by decide)
  have htarget := (hquote.append hpath).append hquote
  have hbody : Text.FeedsFollowReturns line.toList := .of_not_mem (lineFeed_not_mem_payloadLines hline)
  unfold Batch.echoLine
  split
  · have hopen : Text.FeedsFollowReturns "(echo(".toList := .of_not_mem (by decide)
    have hclose : Text.FeedsFollowReturns ")>>".toList := .of_not_mem (by decide)
    simpa [Line.text] using ((hopen.append hbody).append hclose).append htarget
  · have hopen : Text.FeedsFollowReturns "echo(".toList := .of_not_mem (by decide)
    have hclose : Text.FeedsFollowReturns ">>".toList := .of_not_mem (by decide)
    simpa [Line.text] using ((hopen.append hbody).append hclose).append htarget

theorem returning_callLines {function : String} {args : List String} (hf : isIdentifier function = true)
    (ha : ∀ arg ∈ args, Text.hasBreak arg = false) : Returning (callLines .windows function args) :=
  .singleton (.expand (lineFeed_not_mem_callTemplate hf ha))

theorem returning_leaveLines {leaving : String} (h : Text.hasBreak leaving = false) :
    Returning (leaveLines .windows leaving) := by
  refine .singleton (.expand ?_)
  rw [String.toList_append, List.mem_append]
  rintro (hm | hm)
  · revert hm; decide
  · exact (Text.hasBreak_eq_false_iff.1 h).1 hm

namespace Statement

variable {s : Statement} {ls : List Line}

theorem returning_leaf (hs : s.Sound) (hleaf : s.isLeaf = true) (h : s.lines .windows = .ok ls) : Returning ls := by
  cases s with
  | exec =>
    rw [lines] at h
    exact .of_anyBroken (anyBroken_execLines h)
  | interpret =>
    rw [lines, Except.ok.injEq] at h
    subst h
    exact .of_anyBroken (anyBroken_interpretLines .windows _)
  | comment =>
    rw [lines, Except.ok.injEq] at h
    subst h
    exact .of_anyBroken (anyBroken_commentLines .windows _)
  | exportVar =>
    rw [lines] at h
    exact .of_anyBroken (anyBroken_exportLines h)
  | appendFile => exact returning_appendFileLines hs.2.1 h
  | call =>
    rw [lines, Except.ok.injEq] at h
    subst h
    exact returning_callLines hs.1 hs.2
  | leave =>
    rw [lines, Except.ok.injEq] at h
    subst h
    exact returning_leaveLines hs.2
  | list | switchArg => cases hleaf

/-! ## Trees -/

theorem returning_lines (hm : s.Made) (h : s.lines .windows = .ok ls) : Returning ls :=
  forall_lines keeps_feedsFollowReturns hm (fun _ _ hleaf hs _ h => returning_leaf hs hleaf h)
    (fun _ _ _ hs => break_not_mem_value hs (.inl rfl)) h

theorem returning_written (hm : s.Made) : Returning (s.written .windows) :=
  forall_written (P := fun text => Text.FeedsFollowReturns text.toList) fun _ h => returning_lines hm h

theorem returning_exportStatement (e : String × String) :
    Returning ((Script.exportStatement e).written .windows) := by
  refine forall_written (P := fun text => Text.FeedsFollowReturns text.toList) fun ls h => ?_
  rw [Script.exportStatement, lines] at h
  exact Returning.of_anyBroken (anyBroken_exportLines h)

end Statement

/-! ## Scripts -/

namespace Script

variable {script : Script} {ls : List Line}

theorem returning_lines (hv : script.Valid) (h : script.lines .windows = .ok ls) : Returning ls :=
  forall_lines keeps_feedsFollowReturns hv (fun f hf => Statement.returning_written (hv.bodies f hf))
    (fun e _ => Statement.returning_exportStatement e) (fun s hs => Statement.returning_written (hv.statements s hs)) h

/-- Take any built statement, or any script that operations lead to, with whatever line breaks in its texts. Where it
renders for a batch file, no line feed of the text stands without a carriage return right before it. -/
theorem feeds_follow_returns :
    (∀ s : Statement, s.Made → ∀ text, s.render .windows = .ok text → Text.FeedsFollowReturns text.toList) ∧
      ∀ ops : List Operation, (∀ op ∈ ops, op.Made) → ∀ text, (after ops).render .windows = .ok text →
        Text.FeedsFollowReturns text.toList := by
  constructor
  · intro s hm text h
    obtain ⟨-, ls, hls, rfl⟩ := Statement.render_eq_ok_iff.1 h
    exact (Statement.returning_lines hm hls).join
  · intro ops hops text h
    simp only [render, bind_ok_iff, pure_ok_iff] at h
    obtain ⟨-, -, ls, hls, rfl⟩ := h
    exact (returning_lines (valid_after ops hops) hls).join

/-- Line feeds as such, with a carriage return and as tokens, in a statement that renders and in a script of it. -/
theorem feeds_follow_returns_of_mixture :
    let call := Statement.call "report" ["a\x7blf\x7db"]
    let append := Statement.appendFile "log" ["one\ntwo", "three\r\n", "\x7blf\x7dfour\x7blf\x7d\x7blf\x7d"]
    let body := Statement.list [.comment "first\r\nsecond\n", call, append]
    (∃ text, body.render .windows = .ok text ∧ Text.FeedsFollowReturns text.toList) ∧
      ∃ text, (after [.defineFunction "report" (.interpret "echo 1\necho 2"), .addStatement body]).render .windows
        = .ok text ∧ Text.FeedsFollowReturns text.toList := by
  intro call append body
  have hcall : Statement.makeCall "report" ["a\x7blf\x7db"] = .ok call := by decide
  have happend : Statement.makeAppendFile "log" ["one\ntwo", "three\r\n", "\x7blf\x7dfour\x7blf\x7d\x7blf\x7d"]
      = .ok append := by decide
  have hbody : body.Made := by
    refine .list fun s hs => ?_
    simp only [List.mem_cons, List.not_mem_nil, or_false] at hs
    rcases hs with rfl | rfl | rfl
    · exact .comment _
    · exact .call hcall
    · exact .appendFile happend
  have hops : ∀ op ∈ [Operation.defineFunction "report" (.interpret "echo 1\necho 2"), .addStatement body],
      op.Made := by
    intro op hop
    simp only [List.mem_cons, List.not_mem_nil, or_false] at hop
    rcases hop with rfl | rfl
    · exact Statement.Made.interpret _
    · exact hbody
  obtain ⟨text, htext⟩ : ∃ text, body.render .windows = .ok text := exists_ok_of_isOk (by decide)
  obtain ⟨whole, hwhole⟩ : ∃ text, (after [.defineFunction "report" (.interpret "echo 1\necho 2"),
      .addStatement body]).render .windows = .ok text := exists_ok_of_isOk (by decide)
  exact ⟨⟨text, htext, feeds_follow_returns.1 body hbody text htext⟩,
    ⟨whole, hwhole, feeds_follow_returns.2 _ hops whole hwhole⟩⟩

end Script
end Scriptwright
