/-
The shape of the compound pieces of a shell script: the `case` block of a
switch and the here-document that feeds a file.
-/
import Scriptwright.Line
import Scriptwright.Refusal
import Scriptwright.Shell.Quote

namespace Scriptwright.Shell

/-- One arm of a `case` block, from the lines of what it does. -/
def arm (value : String) (body : List Line) : List Line :=
  .code (pattern value ++ ")") :: Line.indent body ++ [.code (Line.step ++ ";;")]

/-- A `case` block on an argument. A value that no arm has does nothing. -/
def caseBlock (argument : String) (cases : List (String × List Line)) : List Line :=
  .code ("case " ++ argument ++ " in") :: cases.flatMap (fun (value, body) => arm value body)
    ++ [.code "esac"]

/-- Payload lines for the end of a file, in a here-document whose text the shell leaves alone. -/
def hereDocument (path : String) (payload : List String) : List Line :=
  .code ("cat >> " ++ path ++ " <<\x27" ++ hereDelimiter ++ "\x27") :: payload.map Line.literal
    ++ [.literal hereDelimiter]

end Scriptwright.Shell
