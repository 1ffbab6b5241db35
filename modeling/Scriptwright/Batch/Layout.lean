/-
The shape of the compound pieces of a batch file. There is no branch on many
values, so a switch is a guard that goes to the abort label when no value fits,
a jump to the label of the value that does, and one labelled block for each
case that ends with a jump past the others. There is no here-document either,
so each payload line has an `echo` of its own.
-/
import Scriptwright.Batch.Quote
import Scriptwright.Line
import Scriptwright.Name
import Scriptwright.Refusal

namespace Scriptwright.Batch

/-- The label of the handler for what went wrong. -/
def abortLabel : String := "abort"

/-- The label after the last case of a switch. -/
def endLabel : String := "END_SWITCH"

/-- The variable that tells the handler what went wrong. -/
def exceptionVariable : String := "EXCEPTION"

/-- The label of the case of a value. -/
def caseLabel (value : String) : String :=
  caseLabelStart ++ labelOf value

/-- The test of an argument against a value; percent signs of the value are literal. -/
def comparison (argument value : String) : String :=
  "\"" ++ argument ++ "\" == \"" ++ escapePercent value ++ "\""

/-- The line that opens the block run when the argument is none of the values. -/
def guardLine (argument : String) (values : List String) : String :=
  String.join (values.map fun value => "if not " ++ comparison argument value ++ " ") ++ "("

/-- Sends every argument but the values to the handler. -/
def guard (argument : String) (values : List String) : List Line :=
  [.code (guardLine argument values),
    .code (Line.step ++ "set " ++ exceptionVariable ++ "=bad argument: " ++ argument ++ " not in "
      ++ " ".intercalate (values.map escapeEcho)),
    .code (Line.step ++ "goto " ++ abortLabel),
    .code ")"]

/-- Sends each value to its label: in one jump if every value is its own label, else one
comparison after another. -/
def dispatch (argument : String) (values : List String) : List Line :=
  if values.all isLabelSafe then [.code ("goto " ++ caseLabelStart ++ argument)]
  else values.map fun value => .code ("if " ++ comparison argument value ++ " goto " ++ caseLabel value)

/-- The labelled block of one case, from the lines of what it does. -/
def caseBlock (value : String) (body : List Line) : List Line :=
  .code (":" ++ caseLabel value) :: Line.indent body ++ [.code (Line.step ++ "GOTO " ++ endLabel)]

/-- A switch on an argument. -/
def switch (argument : String) (cases : List (String × List Line)) : List Line :=
  guard argument (cases.map Prod.fst) ++ dispatch argument (cases.map Prod.fst)
    ++ cases.flatMap (fun (value, body) => caseBlock value body) ++ [.code (":" ++ endLabel)]

/-- Whether a text ends in a digit, which would number the redirection after it. -/
def endsInDigit (text : String) : Bool :=
  text.toList.getLast?.any Char.isDigit

/-- An escaped payload line for the end of a file. After `echo(` even a blank text is printed. -/
def echoLine (target payload : String) : Line :=
  if endsInDigit payload then .code ("(echo(" ++ payload ++ ")>>" ++ target)
  else .code ("echo(" ++ payload ++ ">>" ++ target)

end Scriptwright.Batch
