/-
How a whole script is written out. A shell script defines its functions first
and ends with the exit code of its last command; a batch file runs its
statements first, leaves, and has the handler and the functions after that,
each behind its label.
-/
import Scriptwright.Script
import Scriptwright.Statement.Lines

namespace Scriptwright.Script

/-- An indented line of code. -/
def inner (text : String) : Line :=
  .code (Line.step ++ text)

/-- The lines before the functions of a shell script. -/
def shellHeader : List Line :=
  [.code "#!/bin/bash",
    .code "set +u",
    .code "shopt -s xpg_echo",
    .code "shopt -s expand_aliases",
    .code ("function " ++ Batch.abortLabel ++ " \x7b"),
    inner "echo \"aborting: $@\" 1>&2",
    inner "exit 1",
    .code "\x7d"]

/-- The handler of a batch file, for a value that no case of a switch has. -/
def batchHandler : List Line :=
  [.code (":" ++ Batch.abortLabel),
    inner ("echo aborting: %" ++ Batch.exceptionVariable ++ "%"),
    inner "exit /b 1"]

/-- A function of a script, from the lines of its body. -/
def functionBlock (family : Family) (name : String) (body : List Line) : List Line :=
  match family with
  | .unix =>
    .code ("function " ++ name ++ " \x7b") :: Line.indent body ++ [inner "return 0", .code "\x7d"]
  | .windows => .code (":" ++ name) :: Line.indent body ++ [inner "exit /b 0"]

/-- The lines of functions one after another. -/
def functionLines (family : Family) : List (String × Statement) → Except Refusal (List Line)
  | [] => .ok []
  | (name, body) :: rest => do
    let written ← body.lines family
    let others ← functionLines family rest
    return functionBlock family name written ++ others

/-- The lines that export the variables. -/
def variableLines (family : Family) (exports : List (String × String)) : Except Refusal (List Line) :=
  Statement.linesList family (exports.map fun (name, value) => .exportVar name value)

/-- The lines of the variables and then the statements. -/
def mainLines (family : Family) (script : Script) : Except Refusal (List Line) := do
  let exports ← variableLines family script.exports
  let statements ← Statement.linesList family script.statements
  return exports ++ statements

/-- The lines of a whole script. -/
def lines (family : Family) (script : Script) : Except Refusal (List Line) :=
  match family with
  | .unix => do
    let functions ← functionLines .unix script.functions
    let main ← mainLines .unix script
    return shellHeader ++ functions ++ main ++ [.code "exit $?"]
  | .windows => do
    let main ← mainLines .windows script
    let functions ← functionLines .windows script.functions
    return .code "@echo off" :: main ++ [.code "exit /b 0"] ++ batchHandler ++ functions

/-- How many switches a script holds, in its functions and its statements. -/
def switchCount (script : Script) : Nat :=
  Statement.switchCountCases script.functions + Statement.switchCountList script.statements

/-- The text of a whole script for a family. -/
def render (family : Family) (script : Script) : Except Refusal String := do
  Statement.checkSwitchCount family script.switchCount
  let written ← script.lines family
  return Line.join family written

end Scriptwright.Script
