/-
A whole script in the making: variables to export, functions to define and the
statements to run, each in the order given. Only the checked operations below
add to it, and one that is refused gives no new script.
-/
import Scriptwright.Batch.Layout
import Scriptwright.Statement.Checked

namespace Scriptwright

/-- A script in the making. -/
structure Script where
  exports : List (String × String) := []
  functions : List (String × Statement) := []
  statements : List Statement := []
  deriving DecidableEq, Repr

namespace Script

/-- Whether a function's name is a label that every batch file or a switch uses. -/
def isReserved (name : String) : Bool :=
  sameLabel name Batch.abortLabel || sameLabel name Batch.endLabel
    || sameLabel (String.ofList (name.toList.take caseLabelStart.length)) caseLabelStart

/-- Exports a variable before the statements run. -/
def exportVariable (script : Script) (name value : String) : Except Refusal Script := do
  let _ ← Statement.makeExport name value
  if script.exports.any fun (other, _) => other == name then .error (.variableRepeated name)
  else return { script with exports := script.exports ++ [(name, value)] }

/-- Defines a function that statements can call. -/
def defineFunction (script : Script) (name : String) (body : Statement) : Except Refusal Script :=
  if !isIdentifier name then .error (.functionName name)
  else if isReserved name then .error (.functionReserved name)
  else if script.functions.any fun (other, _) => sameLabel other name then .error (.functionRepeated name)
  else .ok { script with functions := script.functions ++ [(name, body)] }

/-- Adds statements after the ones already there. -/
def addStatements (script : Script) (body : List Statement) : Script :=
  { script with statements := script.statements ++ body }

/-- Adds one statement after the ones already there. -/
def addStatement (script : Script) (s : Statement) : Script :=
  script.addStatements [s]

end Script
end Scriptwright
