/-
The parts of a whole script: those of its functions and statements, and the
layout around them.
-/
import Scriptwright.Proofs.Script.Lines

namespace Scriptwright.Script

open Scriptwright.Part Statement

def headerParts : List Part :=
  [.own 0 "#!/bin/bash",
    .own 0 "set +u",
    .own 0 "shopt -s xpg_echo",
    .own 0 "shopt -s expand_aliases",
    .own 0 ("function " ++ Batch.abortLabel ++ " \x7b"),
    .own 1 "echo \"aborting: $@\" 1>&2",
    .own 1 "exit 1",
    .own 0 "\x7d"]

def handlerParts : List Part :=
  [.own 0 (":" ++ Batch.abortLabel),
    .own 1 ("echo aborting: %" ++ Batch.exceptionVariable ++ "%"),
    .own 1 "exit /b 1"]

def functionParts (family : Family) (name : String) (body : List Part) : List Part :=
  match family with
  | .unix => .own 0 ("function " ++ name ++ " \x7b") :: (body.map Part.indent ++ [.own 1 "return 0", .own 0 "\x7d"])
  | .windows => .own 0 (":" ++ name) :: (body.map Part.indent ++ [.own 1 "exit /b 0"])

def functionsParts (family : Family) (functions : List (String × Statement)) : List Part :=
  functions.flatMap fun f => functionParts family f.1 (f.2.parts family)

/-- The statements that export the variables. -/
def exportStatements (script : Script) : List Statement :=
  script.exports.map fun e => .exportVar e.1 e.2

def mainParts (family : Family) (script : Script) : List Part :=
  partsList family script.exportStatements ++ partsList family script.statements

/-- The parts of a script that renders. -/
def parts (family : Family) (script : Script) : List Part :=
  match family with
  | .unix => headerParts ++ (functionsParts .unix script.functions ++ (mainParts .unix script ++ [.own 0 "exit $?"]))
  | .windows =>
    .own 0 "@echo off" :: (mainParts .windows script
      ++ .own 0 "exit /b 0" :: (handlerParts ++ functionsParts .windows script.functions))

theorem allLines_partsList {family : Family} {body : List Statement} {ls : List Line}
    (h : linesList family body = .ok ls) : allLines (partsList family body) = ls := by
  have hlist : (Statement.list body).lines family = .ok ls := by rw [Statement.lines, h]
  have := Statement.allLines_parts hlist
  rwa [Statement.parts] at this

theorem allLines_functionParts (family : Family) (name : String) (s : Statement) :
    allLines (functionParts family name (s.parts family)) = functionBlock family name (allLines (s.parts family)) := by
  have hindent := allLines_indent (notBlank_parts family s)
  cases family with
  | unix => simp [functionParts, functionBlock, Part.lines, indentation, inner, hindent]
  | windows => simp [functionParts, functionBlock, Part.lines, indentation, inner, hindent]

theorem allLines_functionsParts {family : Family} {functions : List (String × Statement)} {ls : List Line}
    (h : functionLines family functions = .ok ls) : allLines (functionsParts family functions) = ls := by
  induction functions generalizing ls with
  | nil => cases h; rfl
  | cons f functions ih =>
    obtain ⟨name, body⟩ := f
    simp only [functionLines, bind_ok_iff, pure_ok_iff] at h
    obtain ⟨own, hown, others, hothers, rfl⟩ := h
    have hrest := ih hothers
    rw [functionsParts] at hrest ⊢
    rw [List.flatMap_cons, allLines_append, allLines_functionParts, Statement.allLines_parts hown, hrest]

theorem allLines_mainParts {family : Family} {script : Script} {ls : List Line}
    (h : script.mainLines family = .ok ls) : allLines (script.mainParts family) = ls := by
  simp only [mainLines, bind_ok_iff, pure_ok_iff] at h
  obtain ⟨exports, hexports, statements, hstatements, rfl⟩ := h
  rw [mainParts, allLines_append, allLines_partsList hstatements]
  congr 1
  exact allLines_partsList hexports

/-- The parts of a script, written out, are its lines. -/
theorem allLines_parts {family : Family} {script : Script} {ls : List Line} (h : script.lines family = .ok ls) :
    allLines (script.parts family) = ls := by
  cases family with
  | unix =>
    simp only [Script.lines, bind_ok_iff, pure_ok_iff] at h
    obtain ⟨functions, hfunctions, main, hmain, rfl⟩ := h
    have hheader : allLines headerParts = shellHeader := by decide
    simp [parts, hheader, allLines_functionsParts hfunctions, allLines_mainParts hmain, Part.lines, indentation]
  | windows =>
    simp only [Script.lines, bind_ok_iff, pure_ok_iff] at h
    obtain ⟨main, hmain, functions, hfunctions, rfl⟩ := h
    have hhandler : allLines handlerParts = batchHandler := by decide
    simp [parts, hhandler, allLines_functionsParts hfunctions, allLines_mainParts hmain, Part.lines, indentation]

/-- A rendered script is the lines of its parts, in a batch file of one switch at most. -/
theorem text_of_render {family : Family} {script : Script} {text : String} (h : script.render family = .ok text) :
    text = Line.join family (allLines (script.parts family)) ∧ ¬ (family = .windows ∧ 1 < script.switchCount) := by
  unfold Script.render checkSwitchCount at h
  split at h
  · cases h
  · next hcount =>
    simp only [bind_ok_iff, pure_ok_iff] at h
    obtain ⟨-, -, ls, hls, rfl⟩ := h
    exact ⟨by rw [allLines_parts hls], hcount⟩

/-- Every statement of a script that renders renders. -/
theorem lines_of_render {family : Family} {script : Script} {text : String} (h : script.render family = .ok text) :
    (∀ s ∈ script.statements, s.lines family = .ok (s.written family)) ∧
      ∀ f ∈ script.functions, f.2.lines family = .ok (f.2.written family) := by
  simp only [Script.render, bind_ok_iff] at h
  obtain ⟨-, -, ls, hls, -⟩ := h
  exact (lines_eq_written hls).symm

end Scriptwright.Script
