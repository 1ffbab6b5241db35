/-
When a built statement is refused, and with what. Each node of the tree is at
fault by itself or not (`AtFault`), for one family or for both, and `fault?`
says what it is then refused with. The tree is refused with the refusal of the
first node at fault, in the order in which the nodes are written, unless it is
for a batch file and has too many switches, which is found before all else
(`render_refused_first`). No other tree is refused: its whole text is written.
-/
import Scriptwright.Proofs.Statement.LineFeeds
import Scriptwright.Proofs.Statement.Nodes
import Scriptwright.Proofs.Statement.Parts

namespace Scriptwright

/-! ## Refusals of a computation -/

/-- What a computation is refused with, if it is. -/
def refusal? {α : Type} : Except Refusal α → Option Refusal
  | .error refusal => some refusal
  | .ok _ => none

/-- One computation after another is refused with what is refused first. -/
theorem refusal?_bind {α β : Type} {x : Except Refusal α} {f : α → Except Refusal β} {o : Option Refusal}
    (h : ∀ a, refusal? (f a) = o) : refusal? (x >>= f) = (refusal? x).or o := by
  cases x with
  | error refusal => rfl
  | ok a => exact h a

theorem refusal?_pure {α : Type} (a : α) : refusal? (pure a) = none := rfl

theorem eq_error_of_refusal? {α : Type} {x : Except Refusal α} {refusal : Refusal} (h : refusal? x = some refusal) :
    x = .error refusal := by
  cases x with
  | error other => exact congrArg Except.error (Option.some.inj h)
  | ok a => cases h

theorem eq_ok_of_refusal? {α : Type} {x : Except Refusal α} (h : refusal? x = none) : ∃ a, x = .ok a := by
  cases x with
  | error other => cases h
  | ok a => exact ⟨a, rfl⟩

/-! ## Exports -/

/-- What stands before the value in the line that sets a variable. -/
def exportStart (family : Family) (name : String) : String :=
  match family with
  | .unix => "export " ++ name ++ "=\""
  | .windows => "set " ++ name ++ "="

theorem brace_not_mem_exportStart (family : Family) {name : String} (h : isIdentifier name = true) :
    '\x7b' ∉ (exportStart family name).toList := by
  have hname : '\x7b' ∉ name.toList := fun hm => absurd (Text.isWordChar_of_mem_identifier h hm) (by decide)
  cases family with
  | unix => exact not_mem_append (not_mem_append (by decide) hname) (by decide)
  | windows => exact not_mem_append (not_mem_append (by decide) hname) (by decide)

theorem hasBreak_exportTemplate (family : Family) {name value : String} (hn : isIdentifier name = true)
    (hv : Text.hasBreak value = false) : Text.hasBreak (exportTemplate family name value) = false := by
  obtain ⟨hfeed, hreturn⟩ := Text.hasBreak_eq_false_iff.1 hv
  rw [Text.hasBreak_eq_false_iff]
  exact ⟨foreign_not_mem_exportTemplate rfl hn hfeed, foreign_not_mem_exportTemplate rfl hn hreturn⟩

/-- A token of the line that sets a variable stands in the value. -/
theorem occursIn_exportTemplate (family : Family) {name : String} (hn : isIdentifier name = true) (value : String)
    (t : Token) : Token.occursIn t (exportTemplate family name value) = Token.occursIn t value := by
  have hstart := brace_not_mem_exportStart family hn
  cases family with
  | unix =>
    rw [exportStart] at hstart
    rw [exportTemplate, Token.occursIn_append_quote, Token.occursIn_append_of_not_mem t hstart, Shell.escape,
      Token.keepsTokens_shellEscape.occursIn_flatMap]
  | windows =>
    rw [exportStart] at hstart
    rw [exportTemplate, Token.occursIn_append_of_not_mem t hstart, Batch.escapeEcho, Batch.escapePercent,
      Token.keepsTokens_percent.occursIn_flatMap, Batch.escape, Token.keepsTokens_batchEscape.occursIn_flatMap]

/-! ## Nodes at fault -/

namespace Statement

/-- Whether a statement is at fault by itself, whatever it holds. -/
def AtFault (family : Family) : Statement → Prop
  | exec command replacing =>
    Text.hasBreak (Token.expand family command) = true ∨ Text.isBlank (Token.expand family command) = true ∨
      family = .windows ∧ replacing = true
  | exportVar _ value => Token.spelling .lineFeed <:+: value.toList
  | appendFile _ payload => family = .unix ∧ hereDelimiter ∈ payloadLines .unix payload
  | switchArg index _ => family = .windows ∧ 9 < index
  | _ => False

/-- What a statement at fault is refused with: a command first for its line breaks, then for being blank, and only
then because it replaces the shell. -/
def fault? (family : Family) : Statement → Option Refusal
  | exec command replacing =>
    if Text.hasBreak (Token.expand family command) = true then some (.commandSpansLines command)
    else if Text.isBlank (Token.expand family command) = true then some .commandBlank
    else if family = .windows ∧ replacing = true then some .cannotReplaceShell
    else none
  | exportVar name value => if Token.occursIn .lineFeed value = true then some (.valueExpandsToLines name) else none
  | appendFile _ payload =>
    if family = .unix then (delimiterPlace? (payloadLines .unix payload)).map .delimiterLine else none
  | switchArg index _ => if family = .windows ∧ 9 < index then some (.argumentOutOfReach index) else none
  | _ => none

theorem fault?_eq_none_iff {family : Family} {s : Statement} : s.fault? family = none ↔ ¬ s.AtFault family := by
  cases s with
  | exec command replacing =>
    simp only [fault?, AtFault, not_or]
    split
    · simp_all
    · split
      · simp_all
      · split <;> simp_all
  | exportVar name value =>
    simp only [fault?, AtFault, ← Token.occursIn_iff_infix]
    split <;> simp_all
  | appendFile path payload =>
    simp only [fault?, AtFault]
    split
    · next h => simp [h, delimiterPlace?_eq_none_iff]
    · next h => simp [h]
  | switchArg index cases =>
    simp only [fault?, AtFault]
    split <;> simp_all
  | _ => simp [fault?, AtFault]

/-! ## Refusals of a tree -/

variable {family : Family} {s : Statement}

theorem refusal?_lines_leaf (hs : s.Sound) (hleaf : s.isLeaf = true) :
    refusal? (s.lines family) = s.fault? family := by
  cases s with
  | exec command replacing =>
    simp only [lines, execLines, fault?]
    split
    · rfl
    · split
      · rfl
      · cases family <;> cases replacing <;> rfl
  | exportVar name value =>
    obtain ⟨hname, hvalue⟩ := hs
    have hbreak := Token.hasBreak_expand family (hasBreak_exportTemplate family hname hvalue)
    simp only [lines, exportLines, fault?, hbreak, occursIn_exportTemplate family hname]
    split <;> rfl
  | appendFile path payload =>
    simp only [lines, appendFileLines, fault?]
    cases family with
    | unix =>
      simp only [if_true]
      cases delimiterPlace? (payloadLines .unix payload) <;> rfl
    | windows => rfl
  | interpret | call | comment | leave => rfl
  | list | switchArg => cases hleaf

theorem findSome?_nodes_list (body : List Statement) :
    (list body).nodes.findSome? (fault? family) = (nodesList body).findSome? (fault? family) := rfl

theorem refusal?_linesCases (family : Family) {cases : List (String × Statement)}
    (h : ∀ c ∈ cases, refusal? (c.2.lines family) = c.2.nodes.findSome? (fault? family)) :
    refusal? (linesCases family cases) = (nodesCases cases).findSome? (fault? family) := by
  induction cases with
  | nil => rfl
  | cons c cs ih =>
    obtain ⟨value, s⟩ := c
    have hrest := ih fun d hd => h d (List.mem_cons_of_mem _ hd)
    rw [linesCases, nodesCases, List.findSome?_append, ← hrest, ← h _ List.mem_cons_self]
    refine refusal?_bind fun body => ?_
    rw [refusal?_bind fun rest => refusal?_pure _, Option.or_none]

theorem argumentRef?_eq_none_iff {index : Nat} (h : index ≠ 0) :
    family.argumentRef? index = none ↔ family = .windows ∧ 9 < index := by
  cases family with
  | unix => simp [← Option.not_isSome_iff_eq_none, Family.argumentRef?_unix_isSome]
  | windows => simp [Family.argumentRef?_windows_eq_none_iff, h]

/-- A tree is refused exactly when one of its nodes is at fault, with the refusal of the first. -/
theorem refusal?_lines (hm : s.Made) (family : Family) :
    refusal? (s.lines family) = s.nodes.findSome? (fault? family) := by
  induction s using induction_cons with
  | leaf s hleaf =>
    rw [nodes_of_isLeaf hleaf, refusal?_lines_leaf hm.sound hleaf]
    cases h : s.fault? family <;> simp [h]
  | nil => rfl
  | cons s ss ihs ihss =>
    obtain ⟨hs, hss⟩ := hm.of_list_cons
    have hrest := ihss hss
    rw [findSome?_nodes_list] at hrest
    rw [findSome?_nodes_list, nodesList, List.findSome?_append, ← hrest, ← ihs hs, lines, linesList]
    refine refusal?_bind fun first => ?_
    rw [refusal?_bind fun rest => refusal?_pure _, Option.or_none, lines]
  | switchArg index cases ih =>
    obtain ⟨hindex, -, -, -, hmade⟩ := hm.sound
    have hcases := refusal?_linesCases family fun c hc => ih c hc (hmade c hc)
    rw [nodes, List.findSome?_cons, fault?, lines]
    cases hargument : family.argumentRef? index with
    | none => rw [if_pos ((argumentRef?_eq_none_iff hindex).1 hargument)]; rfl
    | some argument =>
      have hfits : ¬ (family = .windows ∧ 9 < index) := by
        rw [← argumentRef?_eq_none_iff hindex, hargument]
        simp
      rw [if_neg hfits, ← hcases]
      show refusal? (linesCases family cases >>= _) = _
      rw [refusal?_bind fun written => refusal?_pure _, Option.or_none]

/-- A built statement that does not have too many switches is refused with the first refusal of its nodes, and its
text is that of all its parts. -/
theorem render_eq_findSome? (hm : s.Made) (family : Family) (h : ¬ (family = .windows ∧ 1 < s.switchCount)) :
    s.render family =
      match s.nodes.findSome? (fault? family) with
      | some refusal => .error refusal
      | none => .ok (Line.join family (Part.allLines (s.parts family))) := by
  have hlines := refusal?_lines hm family
  rw [render_eq_map h]
  cases hfirst : s.nodes.findSome? (fault? family) with
  | some refusal =>
    rw [eq_error_of_refusal? (hlines.trans hfirst)]
    rfl
  | none =>
    obtain ⟨ls, hls⟩ := eq_ok_of_refusal? (hlines.trans hfirst)
    rw [hls, allLines_parts hls]
    rfl

theorem findSome?_fault?_eq_none_iff :
    s.nodes.findSome? (fault? family) = none ↔ ¬ ∃ node ∈ s.nodes, node.AtFault family := by
  simp [List.findSome?_eq_none_iff, fault?_eq_none_iff]

/-- A built statement is refused exactly when it is for a batch file and holds two switches or more, or when one of
its nodes is at fault by itself: a command that has a line break or is blank once its tokens are replaced, or that
replaces the shell in a batch file; an export whose value spells out the token for a line feed; in a shell script a
payload with a line that ends the here-document once its tokens are replaced; in a batch file a switch on an argument
past the ninth. The count of switches is found before all else, and otherwise the first node at fault in the order of
the tree. Every other statement is rendered: its text is that of all its parts. -/
theorem render_refused_first (hm : s.Made) (family : Family) :
    ((∃ refusal, s.render family = .error refusal) ↔
        (family = .windows ∧ 2 ≤ s.nodes.countP isSwitch) ∨ ∃ node ∈ s.nodes, node.AtFault family) ∧
      s.render family =
        if family = .windows ∧ 2 ≤ s.nodes.countP isSwitch then .error (.tooManySwitches (s.nodes.countP isSwitch))
        else match s.nodes.findSome? (fault? family) with
          | some refusal => .error refusal
          | none => .ok (Line.join family (Part.allLines (s.parts family))) := by
  have hcount : s.switchCount = s.nodes.countP isSwitch := switchCount_eq_countP s
  by_cases hmany : family = .windows ∧ 2 ≤ s.nodes.countP isSwitch
  · obtain ⟨rfl, htwo⟩ := hmany
    have hrender := render_of_one_lt (hcount ▸ htwo : 1 < s.switchCount)
    rw [hcount] at hrender
    rw [if_pos ⟨rfl, htwo⟩]
    exact ⟨⟨fun _ => .inl ⟨rfl, htwo⟩, fun _ => ⟨_, hrender⟩⟩, hrender⟩
  · have hrender := render_eq_findSome? hm family (hcount ▸ hmany)
    rw [if_neg hmany]
    refine ⟨?_, hrender⟩
    rw [hrender]
    cases hfirst : s.nodes.findSome? (fault? family) with
    | some refusal =>
      have hfault : ∃ node ∈ s.nodes, node.AtFault family := by
        by_contra hnot
        rw [findSome?_fault?_eq_none_iff.2 hnot] at hfirst
        cases hfirst
      exact ⟨fun _ => .inr hfault, fun _ => ⟨refusal, rfl⟩⟩
    | none =>
      have hfine := findSome?_fault?_eq_none_iff.1 hfirst
      constructor
      · rintro ⟨refusal, he⟩
        cases he
      · intro h
        exact absurd (h.resolve_left hmany) hfine

/-- A command that is blank for a shell script alone stands under a switch on the tenth argument, which a batch file
finds at fault first, and in front of an export over two lines, to which neither family comes. -/
theorem render_refused_first_of_switch :
    let s := list [switchArg 10 [("a", exec "\x7bvarr\x7d" true)], exportVar "A" "1\x7blf\x7d2"]
    s.render .unix = .error .commandBlank ∧ s.render .windows = .error (.argumentOutOfReach 10) := by
  intro s
  have hswitch : makeSwitch 10 [("a", exec "\x7bvarr\x7d" true)] =
      .ok (switchArg 10 [("a", exec "\x7bvarr\x7d" true)]) := by decide
  have hexport : makeExport "A" "1\x7blf\x7d2" = .ok (exportVar "A" "1\x7blf\x7d2") := by decide
  have hmade : s.Made := by
    refine Made.list fun t ht => ?_
    simp only [List.mem_cons, List.not_mem_nil, or_false] at ht
    rcases ht with rfl | rfl
    · refine Made.switchArg (fun c hc => ?_) hswitch
      rw [List.mem_singleton.1 hc]
      exact Made.exec _ _
    · exact Made.exportVar hexport
  have hunix := (render_refused_first hmade .unix).2
  have hwindows := (render_refused_first hmade .windows).2
  exact ⟨hunix.trans (by decide), hwindows.trans (by decide)⟩

end Statement
end Scriptwright
