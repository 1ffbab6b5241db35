/-
What holds of each line of a tree. A property of texts that the layout of a
family keeps is a property of every line of a tree, if it is one of every line
of its leaves (`forall_lines`); and a test that the layout does not pass is
passed by a line of a switch where a line of one of its cases passes it
(`any_switchArg`).
-/
import Scriptwright.Proofs.Statement.Foreign
import Scriptwright.Proofs.Statement.Made
import Scriptwright.Proofs.Statement.Nodes
import Scriptwright.Proofs.Statement.Parts

namespace Scriptwright

variable {family : Family} {c : Char} {P : String → Prop} {ls : List Line}

/-- The layout of a family keeps a property of texts: a step to the right does, and a text that lacks some foreign
character has the property. -/
structure Family.Keeps (family : Family) (c : Char) (P : String → Prop) : Prop where
  foreign : family.isForeign c = true
  step : ∀ text, P text → P (Line.step ++ text)
  plain : ∀ text, c ∉ text.toList → P text

/-- A property that a step to the right keeps is kept where all lines are moved. -/
theorem Line.forall_indent (hstep : ∀ text, P text → P (step ++ text)) (h : ∀ l ∈ ls, P l.text) :
    ∀ l ∈ indent ls, P l.text := by
  intro l hl
  obtain ⟨l', hl', hi⟩ := List.mem_filterMap.1 hl
  cases l' with
  | literal text => cases hi; exact h _ hl'
  | code text =>
    simp only [indent?] at hi
    split at hi
    · cases hi
    · cases hi
      exact hstep text (h _ hl')

namespace Statement

variable {s : Statement}

/-- No line break comes in with a case value. -/
theorem break_not_mem_value {index : Nat} {cases : List (String × Statement)} (h : (switchArg index cases).Sound)
    (hc : c = '\n' ∨ c = '\r') : ∀ arm ∈ cases, c ∉ arm.1.toList := by
  obtain ⟨-, -, hquotes, -, -⟩ := h
  intro arm ha
  obtain ⟨-, hfeed, hreturn⟩ := isQuoteUnsafe_eq_false_iff.1 (hquotes arm ha)
  rcases hc with rfl | rfl
  · exact hfeed
  · exact hreturn

section Switch

variable {index : Nat} {cases : List (String × Statement)} {l : Line}

theorem lines_case_eq_written (h : (switchArg index cases).lines family = .ok ls) :
    ∀ arm ∈ cases, arm.2.lines family = .ok (arm.2.written family) := by
  obtain ⟨_, _, -, hwritten, -⟩ := lines_switchArg_eq_ok_iff.1 h
  exact (linesCases_eq_written hwritten).1

/-- A line of a switch with a foreign character that no case value holds is one of a case, moved right. -/
theorem mem_case_of_mem_switchArg (hc : family.isForeign c = true) (hvalues : ∀ arm ∈ cases, c ∉ arm.1.toList)
    (h : (switchArg index cases).lines family = .ok ls) (hl : l ∈ ls) :
    (∃ arm ∈ cases, l ∈ Line.indent (arm.2.written family)) ∨ c ∉ l.text.toList := by
  obtain ⟨argument, written, hargument, hwritten, rfl⟩ := lines_switchArg_eq_ok_iff.1 h
  obtain ⟨-, rfl⟩ := linesCases_eq_written hwritten
  rcases mem_switchLines hl with ⟨w, hw, hin⟩ | hplain
  · obtain ⟨arm, ha, rfl⟩ := List.mem_map.1 hw
    exact .inl ⟨arm, ha, hin⟩
  · refine .inr (hplain c hc fun text htext => ?_)
    rcases List.mem_cons.1 htext with rfl | htext
    · exact foreign_not_mem_argumentRef hc hargument
    · obtain ⟨w, hw, rfl⟩ := List.mem_map.1 htext
      obtain ⟨arm, ha, rfl⟩ := List.mem_map.1 hw
      exact hvalues arm ha

/-- Every line of a case, moved right, is one of the switch. -/
theorem mem_switchArg_of_mem_case (h : (switchArg index cases).lines family = .ok ls) {arm : String × Statement}
    (ha : arm ∈ cases) (hl : l ∈ Line.indent (arm.2.written family)) : l ∈ ls := by
  obtain ⟨argument, written, -, hwritten, rfl⟩ := lines_switchArg_eq_ok_iff.1 h
  obtain ⟨-, rfl⟩ := linesCases_eq_written hwritten
  exact mem_switchLines_of_mem (List.mem_map_of_mem ha) hl

/-- A test that lines without some foreign character do not pass is passed by a line of a switch where one of a case,
moved right, passes it. -/
theorem any_switchArg {test : Line → Bool} (hc : family.isForeign c = true)
    (htest : ∀ l, c ∉ l.text.toList → test l = false) (hvalues : ∀ arm ∈ cases, c ∉ arm.1.toList)
    (h : (switchArg index cases).lines family = .ok ls) :
    ls.any test = cases.any fun arm => (Line.indent (arm.2.written family)).any test := by
  rw [Bool.eq_iff_iff, List.any_eq_true, List.any_eq_true]
  constructor
  · rintro ⟨l, hl, hpass⟩
    rcases mem_case_of_mem_switchArg hc hvalues h hl with ⟨arm, ha, hin⟩ | hplain
    · exact ⟨arm, ha, List.any_eq_true.2 ⟨l, hin, hpass⟩⟩
    · rw [htest l hplain] at hpass
      cases hpass
  · rintro ⟨arm, ha, hpass⟩
    obtain ⟨l, hin, hpass⟩ := List.any_eq_true.1 hpass
    exact ⟨l, mem_switchArg_of_mem_case h ha hin, hpass⟩

end Switch

/-- What the layout keeps, and the lines of each leaf have, all lines have, unless a case value of a switch brings the
character in. -/
theorem forall_lines (hP : family.Keeps c P) (hm : s.Made)
    (hleaf : ∀ node ∈ s.nodes, node.isLeaf = true → node.Sound →
      ∀ ls, node.lines family = .ok ls → ∀ l ∈ ls, P l.text)
    (hvalues : ∀ index cases, switchArg index cases ∈ s.nodes → (switchArg index cases).Sound →
      ∀ arm ∈ cases, c ∉ arm.1.toList)
    (h : s.lines family = .ok ls) : ∀ l ∈ ls, P l.text := by
  induction s using Statement.induction generalizing ls with
  | leaf s hs =>
    rw [nodes_of_isLeaf hs] at hleaf
    exact hleaf s List.mem_cons_self hs hm.sound ls h
  | list body ih =>
    rw [lines] at h
    intro l hl
    obtain ⟨s, hs, hl⟩ := (mem_linesList_iff h).1 hl
    have hnodes : ∀ node ∈ s.nodes, node ∈ (list body).nodes := fun node hn => mem_nodes_list hs hn
    exact ih s hs (hm.sound s hs) (fun node hn => hleaf node (hnodes node hn))
      (fun index cases hn => hvalues index cases (hnodes _ hn)) (linesList_eq_written h s hs) l hl
  | switchArg index cases ih =>
    obtain ⟨-, -, -, -, hmade⟩ := hm.sound
    have hown := hvalues index cases (self_mem_nodes _) hm.sound
    intro l hl
    rcases mem_case_of_mem_switchArg hP.foreign hown h hl with ⟨arm, ha, hin⟩ | hplain
    · have hnodes : ∀ node ∈ arm.2.nodes, node ∈ (switchArg index cases).nodes := fun node hn => mem_nodes_case ha hn
      have hbody := ih arm ha (hmade arm ha) (fun node hn => hleaf node (hnodes node hn))
        (fun index cases hn => hvalues index cases (hnodes _ hn)) (lines_case_eq_written h arm ha)
      exact Line.forall_indent hP.step hbody l hin
    · exact hP.plain _ hplain

theorem forall_written (h : ∀ ls, s.lines family = .ok ls → ∀ l ∈ ls, P l.text) :
    ∀ l ∈ s.written family, P l.text := by
  unfold written
  split
  · next ls hls => exact h ls hls
  · exact fun l hl => absurd hl List.not_mem_nil

end Statement
end Scriptwright
