/-
The checked ways to make a statement. Each gives the statement, or says why its
parts are refused; where several things are wrong, the first test below that
fails is the one reported. Kinds that allow any text have no test and are made
by their constructors.
-/
import Scriptwright.Name
import Scriptwright.Refusal
import Scriptwright.Statement
import Scriptwright.Text.Breaks

namespace Scriptwright

/-- Whether a text cannot stand between double quotes on one line. -/
def isQuoteUnsafe (text : String) : Bool :=
  text.toList.any fun c => c == '\x22' || Text.isBreakChar c

/-- The place of the first line that would end a here-document. -/
def delimiterPlace? (payload : List String) : Option Nat :=
  payload.findIdx? fun line => line == hereDelimiter

namespace Statement

/-- Lines for the end of a file. -/
def makeAppendFile (path : String) (payload : List String) : Except Refusal Statement :=
  if Text.isBlank path then .error .pathBlank
  else if isQuoteUnsafe path then .error (.pathUnsafe path)
  else match delimiterPlace? payload with
    | some place => .error (.delimiterLine place)
    | none => .ok (.appendFile path payload)

/-- A variable and its value. -/
def makeExport (name value : String) : Except Refusal Statement :=
  if !isIdentifier name then .error (.variableName name)
  else if Text.hasBreak value then .error (.valueSpansLines name)
  else .ok (.exportVar name value)

/-- A call of a function with some arguments. -/
def makeCall (function : String) (args : List String) : Except Refusal Statement :=
  if !isIdentifier function then .error (.calleeName function)
  else match args.find? Text.hasBreak with
    | some arg => .error (.argumentSpansLines arg)
    | none => .ok (.call function args)

/-- An exit code given as a number. -/
def leaveWith (code : Int) : Statement :=
  .leave (toString code)

/-- An exit code given as a text, such as a reference to the code of the last command. -/
def makeLeave (code : String) : Except Refusal Statement :=
  if Text.isBlank code || Text.hasBreak code then .error (.exitCode code)
  else .ok (.leave code)

/-- Tests case values in order against the ones before them, each kept with what its label is
found by. Two values may differ and still have one label, since a label has word characters
only and its case is ignored. -/
def checkCaseValues (earlier : List (String × String)) : List String → Except Refusal Unit
  | [] => .ok ()
  | value :: rest =>
    if isQuoteUnsafe value then .error (.caseUnsafe value)
    else match earlier.lookup (labelKey (labelOf value)) with
      | some other =>
        if other = value then .error (.caseRepeated value)
        else .error (.caseLabelClash other value (labelOf value))
      | none => checkCaseValues ((labelKey (labelOf value), value) :: earlier) rest

/-- A switch on the positional argument of a number, counted from 1. -/
def makeSwitch (index : Nat) (cases : List (String × Statement)) : Except Refusal Statement :=
  if index = 0 then .error .argumentZero
  else match checkCaseValues [] (cases.map Prod.fst) with
    | .error refusal => .error refusal
    | .ok () => if cases.isEmpty then .error .noCases else .ok (.switchArg index cases)

end Statement

/-- The end of the label to which a switch on some cases sends a value. -/
def caseLabel? (cases : List (String × Statement)) (value : String) : Option String :=
  (cases.find? fun (other, _) => other == value).map fun (other, _) => labelOf other

end Scriptwright
