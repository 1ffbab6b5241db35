/-
Where the lines of a script come from: each is a line of a function's body,
moved right, a line of a variable or of a statement, or one of the layout, which
holds no foreign character (`mem_lines_iff`).
-/
import Scriptwright.Proofs.Script.Reachable
import Scriptwright.Proofs.Statement.EachLine
import Scriptwright.Script.Render

namespace Scriptwright.Script

open Line

variable {family : Family} {script : Script} {ls : List Line} {l : Line}

/-- The lines that every script has. -/
def frame : Family → List Line
  | .unix => shellHeader ++ [.code "exit $?"]
  | .windows => [.code "@echo off", .code "exit /b 0"] ++ batchHandler

/-- The lines of the layout of a script, those around the body of each function included. -/
def layout (family : Family) (script : Script) : List Line :=
  frame family ++ script.functions.flatMap fun f => functionBlock family f.1 []

theorem mem_functionBlock_iff {name : String} {body : List Line} :
    l ∈ functionBlock family name body ↔ l ∈ indent body ∨ l ∈ functionBlock family name [] := by
  cases family with
  | unix => simp [functionBlock, or_left_comm]
  | windows => simp [functionBlock, or_left_comm]

theorem mem_functionLines_iff {functions : List (String × Statement)} (h : functionLines family functions = .ok ls) :
    l ∈ ls ↔ (∃ f ∈ functions, l ∈ indent (f.2.written family)) ∨
      l ∈ functions.flatMap fun f => functionBlock family f.1 [] := by
  induction functions generalizing ls with
  | nil =>
    cases h
    simp
  | cons f functions ih =>
    obtain ⟨name, body⟩ := f
    simp only [functionLines, bind_ok_iff, pure_ok_iff] at h
    obtain ⟨own, hown, others, hothers, rfl⟩ := h
    have hwritten : body.written family = own := by rw [Statement.written, hown]
    rw [List.mem_append, ih hothers, mem_functionBlock_iff, List.flatMap_cons, List.mem_append,
      List.exists_mem_cons_iff, hwritten]
    exact or_or_or_comm

/-- The statement that sets a variable of a script. -/
def exportStatement (e : String × String) : Statement :=
  .exportVar e.1 e.2

theorem mem_mainLines_iff (h : script.mainLines family = .ok ls) :
    l ∈ ls ↔ (∃ e ∈ script.exports, l ∈ (exportStatement e).written family) ∨
      ∃ s ∈ script.statements, l ∈ s.written family := by
  have hset : variableLines family script.exports
      = Statement.linesList family (script.exports.map exportStatement) := rfl
  simp only [mainLines, hset, bind_ok_iff, pure_ok_iff] at h
  obtain ⟨exports, hexports, statements, hstatements, rfl⟩ := h
  rw [List.mem_append, Statement.mem_linesList_iff hexports, Statement.mem_linesList_iff hstatements]
  simp only [List.mem_map, exists_exists_and_eq_and]

/-- A script is its functions, its variables and statements, and the frame of its family, in the order of the family. -/
theorem lines_eq_ok (h : script.lines family = .ok ls) :
    ∃ functions main, functionLines family script.functions = .ok functions ∧ script.mainLines family = .ok main ∧
      ∀ l, l ∈ ls ↔ l ∈ functions ∨ l ∈ main ∨ l ∈ frame family := by
  cases family with
  | unix =>
    simp only [lines, bind_ok_iff, pure_ok_iff] at h
    obtain ⟨functions, hfunctions, main, hmain, rfl⟩ := h
    refine ⟨functions, main, hfunctions, hmain, fun l => ?_⟩
    simp only [frame, List.mem_append, or_assoc, or_left_comm]
  | windows =>
    simp only [lines, bind_ok_iff, pure_ok_iff] at h
    obtain ⟨main, hmain, functions, hfunctions, rfl⟩ := h
    refine ⟨functions, main, hfunctions, hmain, fun l => ?_⟩
    simp only [frame, List.cons_append, List.mem_cons, List.mem_append, List.not_mem_nil, or_assoc,
      or_left_comm, or_comm]

theorem functionLines_eq_written {functions : List (String × Statement)} (h : functionLines family functions = .ok ls) :
    ∀ f ∈ functions, f.2.lines family = .ok (f.2.written family) := by
  induction functions generalizing ls with
  | nil => exact fun f hf => absurd hf List.not_mem_nil
  | cons f functions ih =>
    obtain ⟨name, body⟩ := f
    simp only [functionLines, bind_ok_iff, pure_ok_iff] at h
    obtain ⟨own, hown, others, hothers, -⟩ := h
    intro g hg
    rcases List.mem_cons.1 hg with rfl | hg
    · exact Statement.lines_eq_written hown
    · exact ih hothers g hg

/-- What a script that renders holds renders on its own. -/
theorem lines_eq_written (h : script.lines family = .ok ls) :
    (∀ f ∈ script.functions, f.2.lines family = .ok (f.2.written family)) ∧
      ∀ s ∈ script.statements, s.lines family = .ok (s.written family) := by
  obtain ⟨functions, main, hfunctions, hmain, -⟩ := lines_eq_ok h
  simp only [mainLines, bind_ok_iff] at hmain
  obtain ⟨exports, -, statements, hstatements, -⟩ := hmain
  exact ⟨functionLines_eq_written hfunctions, Statement.linesList_eq_written hstatements⟩

/-- A line of a script is one of a function's body, moved right, of a variable, of a statement, or of the layout. -/
theorem mem_lines_iff (h : script.lines family = .ok ls) :
    l ∈ ls ↔ (∃ f ∈ script.functions, l ∈ indent (f.2.written family)) ∨
      (∃ e ∈ script.exports, l ∈ (exportStatement e).written family) ∨
      (∃ s ∈ script.statements, l ∈ s.written family) ∨ l ∈ layout family script := by
  obtain ⟨functions, main, hfunctions, hmain, hls⟩ := lines_eq_ok h
  rw [hls, mem_functionLines_iff hfunctions, mem_mainLines_iff hmain, layout, List.mem_append, or_assoc]
  refine or_congr_right ?_
  rw [or_comm]
  simp only [or_assoc]

theorem plain_of_mem_functionBlock {name : String} (hname : isIdentifier name = true)
    (h : l ∈ functionBlock family name []) : Plain family [] l := by
  intro c hc _
  have hplain := foreign_not_mem_identifier hc hname
  cases family with
  | unix =>
    simp only [functionBlock, indent_nil, List.cons_append, List.nil_append, List.mem_cons, List.not_mem_nil,
      or_false] at h
    rcases h with rfl | rfl | rfl
    · have hopen : c ∉ "function ".toList := not_mem_of_isForeign hc (by decide)
      have hbrace : c ∉ " \x7b".toList := not_mem_of_isForeign hc (by decide)
      exact not_mem_append (not_mem_append hopen hplain) hbrace
    · exact not_mem_of_isForeign hc (by decide)
    · exact not_mem_of_isForeign hc (by decide)
  | windows =>
    simp only [functionBlock, indent_nil, List.cons_append, List.nil_append, List.mem_cons, List.not_mem_nil,
      or_false] at h
    rcases h with rfl | rfl
    · have hcolon : c ∉ ":".toList := not_mem_of_isForeign hc (by decide)
      exact not_mem_append hcolon hplain
    · exact not_mem_of_isForeign hc (by decide)

/-- The layout of a script holds no foreign character. -/
theorem plain_of_mem_layout (hnamed : ∀ f ∈ script.functions, isIdentifier f.1 = true) (h : l ∈ layout family script) :
    Plain family [] l := by
  rcases List.mem_append.1 h with h | h
  · have hall : (frame family).all (fun l => !l.text.toList.any family.isForeign) = true := by
      cases family <;> decide
    intro c hc _
    exact not_mem_of_isForeign hc (by simpa using List.all_eq_true.1 hall l h)
  · obtain ⟨f, hf, h⟩ := List.mem_flatMap.1 h
    exact plain_of_mem_functionBlock (hnamed f hf) h

/-- What the layout keeps, and the lines of each body, variable and statement have, all lines of a script have. -/
theorem forall_lines {c : Char} {P : String → Prop} (hP : family.Keeps c P) (hv : script.Valid)
    (hbodies : ∀ f ∈ script.functions, ∀ l ∈ f.2.written family, P l.text)
    (hexports : ∀ e ∈ script.exports, ∀ l ∈ (exportStatement e).written family, P l.text)
    (hstatements : ∀ s ∈ script.statements, ∀ l ∈ s.written family, P l.text)
    (h : script.lines family = .ok ls) : ∀ l ∈ ls, P l.text := by
  intro l hl
  rcases (mem_lines_iff h).1 hl with ⟨f, hf, hl⟩ | ⟨e, he, hl⟩ | ⟨s, hs, hl⟩ | hl
  · exact Line.forall_indent hP.step (hbodies f hf) l hl
  · exact hexports e he l hl
  · exact hstatements s hs l hl
  · have hplain := plain_of_mem_layout (fun f hf => (hv.named f hf).1) hl
    exact hP.plain _ (hplain c hP.foreign fun text ht => absurd ht List.not_mem_nil)

end Scriptwright.Script
