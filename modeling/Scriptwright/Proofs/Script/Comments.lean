/-
What becomes of a comment. Each of its lines starts with the marker that makes
the reader of a script pass over it, behind the indentation of the blocks around
it; none is lost on the way, and no line break of its text, as such or from
tokens, makes a line without the marker. So it is at every place of a tree and
of a script (`comments_stay_comments`).
-/
import Scriptwright.Proofs.Script.Frames
import Scriptwright.Proofs.Statement.FreeTexts
import Scriptwright.Proofs.Text.Joining
import Scriptwright.Proofs.Text.Physical

namespace Scriptwright

open Scriptwright.Part

variable {family : Family} {depth : Nat} {text : String}

/-! ## Lines of a comment -/

theorem text_commentLine (family : Family) (content : String) :
    (commentLine family content).text = family.commentMarker ++ if content = "" then "" else " " ++ content := by
  by_cases h : content = ""
  · simp [commentLine, h, Line.text]
  · simp [commentLine, h, Line.text, String.append_assoc]

theorem commentLine_eq_code (family : Family) (content : String) :
    commentLine family content = .code (commentLine family content).text := by
  unfold commentLine
  split <;> rfl

theorem isBlank_commentLine (family : Family) (content : String) :
    Text.isBlank (commentLine family content).text = false := by
  have hmarker : Text.isBlank family.commentMarker = false := by cases family <;> decide
  rw [text_commentLine]
  exact isBlank_append_of_left hmarker

/-- No line of code with something on it is lost where lines are moved right. -/
theorem indentBy_code {texts : List String} (h : ∀ text ∈ texts, Text.isBlank text = false) (depth : Nat) :
    Line.indentBy depth (texts.map .code) = texts.map fun text => .code (indentation depth ++ text) := by
  induction depth with
  | zero => simp [Line.indentBy, indentation]
  | succ depth ih =>
    rw [Line.indentBy, ih, Line.indent, List.filterMap_map, ← List.filterMap_eq_map]
    refine List.filterMap_congr fun text htext => ?_
    have hblank : Text.isBlank (indentation depth ++ text) = false := isBlank_append_of_right (h text htext)
    simp [Line.indent?, hblank, indentation, String.append_assoc]

theorem indentBy_commentLines (family : Family) (depth : Nat) (text : String) :
    Line.indentBy depth (commentLines family text)
      = (commentLines family text).map fun l => .code (indentation depth ++ l.text) := by
  have hcode : commentLines family text = ((commentLines family text).map Line.text).map .code := by
    rw [commentLines, List.map_map, List.map_map]
    exact List.map_congr_left fun content _ => commentLine_eq_code family content
  have hblank : ∀ line ∈ (commentLines family text).map Line.text, Text.isBlank line = false := by
    intro line hline
    rw [commentLines, List.map_map] at hline
    obtain ⟨content, -, rfl⟩ := List.mem_map.1 hline
    exact isBlank_commentLine family content
  conv_lhs => rw [hcode]
  rw [indentBy_code hblank, List.map_map]
  rfl

theorem lineFeed_not_mem_indentation (depth : Nat) : '\n' ∉ (indentation depth).toList := by
  induction depth with
  | zero => decide
  | succ depth ih => simp [indentation, Line.step, ih]

/-! ## Reading a comment -/

/-- A line of a comment without its indentation, the marker and the space behind that. -/
def commentContent (family : Family) (depth : Nat) (line : String) : String :=
  match line.toList.drop (indentation depth ++ family.commentMarker).toList.length with
  | ' ' :: content => String.ofList content
  | content => String.ofList content

theorem commentContent_commentLine (family : Family) (depth : Nat) (content : String) :
    commentContent family depth (indentation depth ++ (commentLine family content).text) = content := by
  have hline : (indentation depth ++ (commentLine family content).text).toList
      = (indentation depth ++ family.commentMarker).toList ++ (if content = "" then "" else " " ++ content).toList := by
    rw [text_commentLine, ← String.append_assoc]
    exact String.toList_append
  rw [commentContent, hline, List.drop_left]
  by_cases h : content = ""
  · simp [h]
  · simp [h]

/-- Some physical lines are those of a comment in so many blocks. -/
structure IsComment (family : Family) (depth : Nat) (text : String) (block : List String) : Prop where
  /-- There is one at least. -/
  nonempty : block ≠ []
  /-- Behind the indentation stands the marker, alone or with a space and more text. -/
  marked : ∀ line ∈ block, line = indentation depth ++ family.commentMarker ∨
    ∃ more, more ≠ "" ∧ line = indentation depth ++ family.commentMarker ++ " " ++ more
  /-- They are the lines of the comment on its own, all of them and in order, each moved right. -/
  kept : block = (commentLines family text).map fun l => indentation depth ++ l.text
  /-- A text without carriage returns comes back with its tokens replaced, line by line. -/
  readBack : '\r' ∉ text.toList → (∀ line ∈ block, Text.hasBreak (commentContent family depth line) = false) ∧
    Text.MadeOf (Token.expand family text) (block.map (commentContent family depth))

theorem isComment_lines (family : Family) (depth : Nat) (text : String) :
    IsComment family depth text ((commentLines family text).map fun l => indentation depth ++ l.text) := by
  have hcontents : ((commentLines family text).map fun l => indentation depth ++ l.text).map
      (commentContent family depth) = Text.lines (Token.expand family text) := by
    rw [commentLines, List.map_map, List.map_map]
    refine (List.map_congr_left fun content _ => ?_).trans (List.map_id _)
    exact commentContent_commentLine family depth content
  refine ⟨by simp [commentLines, Text.lines_ne_nil], ?_, rfl, fun hreturn => ?_⟩
  · intro line hline
    rw [commentLines, List.map_map] at hline
    obtain ⟨content, -, rfl⟩ := List.mem_map.1 hline
    rw [Function.comp_apply, text_commentLine]
    by_cases hcontent : content = ""
    · exact .inl (by simp [hcontent])
    · exact .inr ⟨content, hcontent, by simp [hcontent, String.append_assoc]⟩
  · have hends := Token.returnsInEnds_expand family hreturn
    have hmade := hends.madeOf
    rw [String.ofList_toList] at hmade
    rw [hcontents]
    refine ⟨fun line hline => ?_, hmade⟩
    have hmem : commentContent family depth line ∈ Text.lines (Token.expand family text) :=
      hcontents ▸ List.mem_map_of_mem hline
    exact hends.hasBreak_lines (by rwa [String.ofList_toList])

/-! ## Comments in their places -/

/-- Whatever text is put into a comment, what is rendered with it is the same before and behind, and in between there
are the physical lines of that comment; or else it is refused, for the same reason with every text. -/
def StaysComment (family : Family) (depth : Nat) (rendered : String → Except Refusal String) : Prop :=
  (∃ refusal, ∀ text, rendered text = .error refusal) ∨
    ∃ before behind, ∀ text, ∃ whole block, rendered text = .ok whole ∧
      Text.physicalLines family whole = before ++ block ++ behind ∧ IsComment family depth text block

/-- The lines of a comment, moved right, are physical lines between those of what is written around them. -/
theorem physicalLines_comment (family : Family) (depth : Nat) (text : String) (around : Around) :
    Text.physicalLines family (Line.join family (around.enclose (Line.indentBy depth (commentLines family text))))
      = Text.physicalLines family (Line.join family around.before)
        ++ (commentLines family text).map (fun l => indentation depth ++ l.text)
        ++ Text.physicalLines family (Line.join family around.behind) := by
  have hplain : ∀ l ∈ (commentLines family text).map fun l => Line.code (indentation depth ++ l.text),
      '\n' ∉ l.text.toList := by
    intro l hl
    obtain ⟨line, hline, rfl⟩ := List.mem_map.1 hl
    have hfeed := Line.anyBroken_eq_false_iff.1 (anyBroken_commentLines family text) line hline
    rw [show (Line.code (indentation depth ++ line.text)).text = indentation depth ++ line.text from rfl,
      String.toList_append, List.mem_append, not_or]
    exact ⟨lineFeed_not_mem_indentation depth, hfeed⟩
  rw [Around.enclose, indentBy_commentLines, Text.physicalLines_join_append hplain, List.map_map]
  rfl

/-- A comment stays one where its lines come whole, moved right, between lines that do not depend on it. -/
theorem staysComment_of_around {rendered : String → Except Refusal String} (count : Nat)
    (around : Except Refusal Around) (h : ∀ text, rendered text = (do
      Statement.checkSwitchCount family count
      let written ← (fun a => a.enclose (Line.indentBy depth (commentLines family text))) <$> around
      return Line.join family written)) :
    StaysComment family depth rendered := by
  cases hcount : Statement.checkSwitchCount family count with
  | error refusal =>
    refine .inl ⟨refusal, fun text => ?_⟩
    rw [h text, hcount]
    rfl
  | ok =>
    cases around with
    | error refusal =>
      refine .inl ⟨refusal, fun text => ?_⟩
      rw [h text, hcount]
      rfl
    | ok around =>
      refine .inr ⟨Text.physicalLines family (Line.join family around.before),
        Text.physicalLines family (Line.join family around.behind), fun text => ?_⟩
      refine ⟨_, _, ?_, physicalLines_comment family depth text around, isComment_lines family depth text⟩
      rw [h text, hcount]
      rfl

theorem Statement.staysComment (family : Family) (frame : Statement.Frame) :
    StaysComment family frame.depth fun text => (frame.fill (.comment text)).render family := by
  refine staysComment_of_around (frame.fill (.comment "")).switchCount (frame.around family) fun text => ?_
  have hlines : (Statement.comment text).lines family = .ok (commentLines family text) := rfl
  rw [render, switchCount_fill (s := .comment text) (t := .comment "") rfl, lines_fill hlines]

theorem Script.staysComment (family : Family) (frame : Script.Frame) :
    StaysComment family frame.depth fun text => (frame.fill (.comment text)).render family := by
  refine staysComment_of_around (frame.fill (.comment "")).switchCount (frame.around family) fun text => ?_
  have hlines : (Statement.comment text).lines family = .ok (commentLines family text) := rfl
  rw [render, switchCount_fill (s := .comment text) (t := .comment "") rfl, lines_fill hlines]

/-- Take any tree or script with a comment at any place in it, in lists, in cases of switches and in bodies of
functions, and render it for either family. What the text of the comment makes a difference to is a stretch of physical
lines, one at least. Each of them has the indentation of the blocks around it, the marker, and then nothing or a space
and more text; they are as many as the comment has on its own; and what stands behind the markers is, if the text has no
carriage return, that text with its tokens replaced, line by line in order, but for a line end that the last line may
have lacked. Every comment of a tree and of a script is at such a place. -/
theorem comments_stay_comments (family : Family) :
    (∀ frame : Statement.Frame,
        StaysComment family frame.depth fun text => (frame.fill (.comment text)).render family) ∧
      (∀ frame : Script.Frame,
        StaysComment family frame.depth fun text => (frame.fill (.comment text)).render family) ∧
      (∀ (s : Statement) (text : String), .comment text ∈ s.nodes →
        ∃ frame : Statement.Frame, frame.fill (.comment text) = s) ∧
      ∀ (script : Script) (text : String), .comment text ∈ script.nodes →
        ∃ frame : Script.Frame, frame.fill (.comment text) = script :=
  ⟨Statement.staysComment family, Script.staysComment family, fun _ _ h => Statement.exists_fill_eq_of_mem_nodes h,
    fun _ _ h => Script.exists_fill_eq_of_mem_nodes h⟩

/-- Line feeds of both spellings, in a row and at the end, and a token for nothing, in a case of a switch in the body of
a function. -/
theorem comments_stay_comments_of_breaks :
    let text := "a\n\x7blf\x7d rm\n\x7bvarr\x7d\n\n"
    let inner := Statement.list [.comment text, .exec "rm x" false]
    let script : Script := { functions := [("f", .list [.exec "date" false, .switchArg 1 [("on", inner)]])] }
    (∃ frame : Script.Frame, frame.fill (.comment text) = script) ∧
      (∃ whole before behind, script.render .unix = .ok whole ∧ Text.physicalLines .unix whole
        = before ++ ["      # a", "      #", "      #  rm", "      #", "      #"] ++ behind) ∧
      Text.MadeOf (Token.expand .unix text) ["a", "", " rm", "", ""] := by
  intro text inner script
  have hplace := (comments_stay_comments .unix).2.2.2 script text (by decide)
  let frame : Script.Frame :=
    .body {} "f" (.list [.exec "date" false] (.switchArg 1 [] "on" (.list [] .gap [.exec "rm x" false]) []) []) []
  have hscript : frame.fill (.comment text) = script := rfl
  rcases (comments_stay_comments .unix).2.1 frame with ⟨refusal, hrefused⟩ | ⟨before, behind, hrendered⟩
  · obtain ⟨whole, hwhole⟩ : ∃ whole, (frame.fill (.comment "")).render .unix = .ok whole :=
      exists_ok_of_isOk (by decide)
    exact absurd (hwhole.symm.trans (hrefused "")) (by simp)
  · obtain ⟨whole, block, hwhole, hlines, hcomment⟩ := hrendered text
    obtain rfl : block = ["      # a", "      #", "      #  rm", "      #", "      #"] :=
      hcomment.kept.trans (by decide)
    have hcontents : ["      # a", "      #", "      #  rm", "      #", "      #"].map
        (commentContent .unix frame.depth) = ["a", "", " rm", "", ""] := by decide
    have hmade := (hcomment.readBack (by decide)).2
    rw [hcontents] at hmade
    exact ⟨hplace, ⟨whole, before, behind, hscript ▸ hwhole, hlines⟩, hmade⟩

end Scriptwright
