/-
A script with a gap in it, in one of its statements or in the body of one of its
functions. As with a tree, what is written around the gap does not depend on the
statement there, whose lines come whole between the two (`lines_fill`); the body
of a function is moved right by one step more.
-/
import Scriptwright.Proofs.Script.HereDocuments
import Scriptwright.Proofs.Statement.Frames

namespace Scriptwright.Script

open Statement

/-- A script with a gap in it. -/
inductive Frame where
  /-- A script, and then a statement with the gap in it and more statements. -/
  | main (script : Script) (inner : Statement.Frame) (behind : List Statement)
  /-- A script, and then a function with the gap in its body and more functions. -/
  | body (script : Script) (name : String) (inner : Statement.Frame) (behind : List (String × Statement))

/-- What a function writes around its body. -/
def functionAround (family : Family) (name : String) : Around :=
  match family with
  | .unix => ⟨[.code ("function " ++ name ++ " \x7b")], [inner "return 0", .code "\x7d"]⟩
  | .windows => ⟨[.code (":" ++ name)], [inner "exit /b 0"]⟩

namespace Frame

/-- The script with a statement in the gap. -/
def fill : Frame → Statement → Script
  | main script inner behind, s => { script with statements := script.statements ++ inner.fill s :: behind }
  | body script name inner behind, s => { script with functions := script.functions ++ (name, inner.fill s) :: behind }

/-- How many blocks are around the gap: the switches there, and the function if there is one. -/
def depth : Frame → Nat
  | main _ inner _ => inner.depth
  | body _ _ inner _ => inner.depth + 1

/-- What the statements of a script write around the gap. -/
def mainAround (family : Family) (script : Script) (inner : Statement.Frame) (behind : List Statement) :
    Except Refusal Around := do
  let exports ← variableLines family script.exports
  let near ← (Statement.Frame.list script.statements inner behind).around family
  return near.widen exports []

/-- What functions write around the gap in the body of one of them. -/
def functionsAround (family : Family) (before : List (String × Statement)) (name : String) (inner : Statement.Frame)
    (behind : List (String × Statement)) : Except Refusal Around := do
  let first ← functionLines family before
  let near ← inner.around family
  let last ← functionLines family behind
  let own := functionAround family name
  return near.indent.widen (first ++ own.before) (own.behind ++ last)

/-- What is written around the gap, or the first refusal there. -/
def around : Family → Frame → Except Refusal Around
  | .unix, main script inner behind => do
    let functions ← functionLines .unix script.functions
    let near ← mainAround .unix script inner behind
    return near.widen (shellHeader ++ functions) [.code "exit $?"]
  | .windows, main script inner behind => do
    let near ← mainAround .windows script inner behind
    let functions ← functionLines .windows script.functions
    return near.widen [.code "@echo off"] ([.code "exit /b 0"] ++ batchHandler ++ functions)
  | .unix, body script name inner behind => do
    let near ← functionsAround .unix script.functions name inner behind
    let main ← mainLines .unix script
    return near.widen shellHeader (main ++ [.code "exit $?"])
  | .windows, body script name inner behind => do
    let main ← mainLines .windows script
    let near ← functionsAround .windows script.functions name inner behind
    return near.widen (.code "@echo off" :: main ++ [.code "exit /b 0"] ++ batchHandler) []

end Frame

variable {family : Family} {s t : Statement} {own : List Line}

theorem functionBlock_eq_enclose (family : Family) (name : String) (body : List Line) :
    functionBlock family name body = (functionAround family name).enclose (Line.indent body) := by
  cases family with
  | unix => simp [functionBlock, functionAround, Around.enclose]
  | windows => simp [functionBlock, functionAround, Around.enclose]

theorem functionLines_append (family : Family) (a b : List (String × Statement)) :
    functionLines family (a ++ b) = (do return (← functionLines family a) ++ (← functionLines family b)) := by
  induction a with
  | nil => exact (bind_pure _).symm
  | cons f functions ih =>
    simp only [List.cons_append, functionLines, ih, bind_assoc, pure_bind, List.append_assoc]

theorem functionLines_fill (h : s.lines family = .ok own) (before : List (String × Statement)) (name : String)
    (inner : Statement.Frame) (behind : List (String × Statement)) :
    functionLines family (before ++ (name, inner.fill s) :: behind)
      = (fun around => around.enclose (Line.indentBy (inner.depth + 1) own))
        <$> Frame.functionsAround family before name inner behind := by
  rw [functionLines_append, functionLines, Statement.lines_fill h, Frame.functionsAround]
  -- As for a tree, both sides do the same in the same order, and what is left is where the lines are put.
  simp only [map_eq_pure_bind, bind_assoc, pure_bind]
  simp only [functionBlock_eq_enclose, Line.indentBy, Around.enclose_widen, Around.enclose_indent]
  simp only [Around.enclose, List.append_assoc]

theorem mainLines_fill (h : s.lines family = .ok own) (script : Script) (inner : Statement.Frame)
    (behind : List Statement) :
    ((Frame.main script inner behind).fill s).mainLines family
      = (fun around => around.enclose (Line.indentBy inner.depth own))
        <$> Frame.mainAround family script inner behind := by
  have hlist : linesList family (script.statements ++ inner.fill s :: behind)
      = (fun around => around.enclose (Line.indentBy inner.depth own))
        <$> (Statement.Frame.list script.statements inner behind).around family :=
    Statement.lines_fill h (.list script.statements inner behind)
  rw [mainLines, Frame.fill, hlist, Frame.mainAround]
  simp only [map_eq_pure_bind, bind_assoc, pure_bind, Around.enclose_widen, List.append_nil]

/-- The lines of a statement in the gap come whole, moved right, between what is written around the gap. -/
theorem lines_fill (h : s.lines family = .ok own) (frame : Frame) :
    (frame.fill s).lines family
      = (fun around => around.enclose (Line.indentBy frame.depth own)) <$> frame.around family := by
  cases frame with
  | main script inner behind =>
    have hmain := mainLines_fill h script inner behind
    have hfunctions : ((Frame.main script inner behind).fill s).functions = script.functions := rfl
    cases family with
    | unix =>
      rw [lines, hmain, hfunctions, Frame.around, Frame.depth]
      simp only [map_eq_pure_bind, bind_assoc, pure_bind, Around.enclose_widen]
    | windows =>
      rw [lines, hmain, hfunctions, Frame.around, Frame.depth]
      simp only [map_eq_pure_bind, bind_assoc, pure_bind, Around.enclose_widen, List.append_assoc, List.cons_append,
        List.nil_append]
  | body script name inner behind =>
    have hmain : ∀ family, ((Frame.body script name inner behind).fill s).mainLines family = script.mainLines family :=
      fun _ => rfl
    have hfunctions := functionLines_fill h script.functions name inner behind
    cases family with
    | unix =>
      rw [lines, hmain, Frame.fill, hfunctions, Frame.around, Frame.depth]
      simp only [map_eq_pure_bind, bind_assoc, pure_bind, Around.enclose_widen, List.append_assoc]
    | windows =>
      rw [lines, hmain, Frame.fill, hfunctions, Frame.around, Frame.depth]
      simp only [map_eq_pure_bind, bind_assoc, pure_bind, Around.enclose_widen, List.append_assoc, List.append_nil,
        List.cons_append]

theorem switchCount_fill (h : s.switchCount = t.switchCount) (frame : Frame) :
    (frame.fill s).switchCount = (frame.fill t).switchCount := by
  cases frame with
  | main script inner behind =>
    simp only [Frame.fill, switchCount, switchCountList_append, switchCountList, Statement.switchCount_fill h inner]
  | body script name inner behind =>
    simp only [Frame.fill, switchCount,
      switchCountCases_congr script.functions behind name (Statement.switchCount_fill h inner)]

/-- Every node of a script stands in a gap of the script. -/
theorem exists_fill_eq_of_mem_nodes {script : Script} {node : Statement} (h : node ∈ script.nodes) :
    ∃ frame : Frame, frame.fill node = script := by
  rw [nodes, nodesCases_eq_flatMap, nodesList_eq_flatMap, List.mem_append, List.mem_flatMap, List.mem_flatMap] at h
  obtain ⟨exports, functions, statements⟩ := script
  rcases h with ⟨⟨name, s⟩, hs, h⟩ | ⟨s, hs, h⟩
  · obtain ⟨inner, rfl⟩ := Statement.exists_fill_eq_of_mem_nodes h
    obtain ⟨before, behind, rfl⟩ := List.append_of_mem hs
    exact ⟨.body ⟨exports, before, statements⟩ name inner behind, rfl⟩
  · obtain ⟨inner, rfl⟩ := Statement.exists_fill_eq_of_mem_nodes h
    obtain ⟨before, behind, rfl⟩ := List.append_of_mem hs
    exact ⟨.main ⟨exports, functions, before⟩ inner behind, rfl⟩

end Scriptwright.Script
