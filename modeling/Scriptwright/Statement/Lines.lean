/-
How statements are written out: `Statement.lines` gives the lines of a tree for
a family, or the first refusal met on the way through it, and
`Statement.render` the finished text. Tokens are replaced here, after the texts
they stand in have been quoted; that a text then has a line break, or a command
turns out blank, is found here too.
-/
import Scriptwright.Batch.Layout
import Scriptwright.Shell.Layout
import Scriptwright.Statement.Checked
import Scriptwright.Token

namespace Scriptwright

/-! ## Single statements -/

/-- The line of a command. -/
def execLines (family : Family) (command : String) (replacing : Bool) : Except Refusal (List Line) :=
  let expanded := Token.expand family command
  if Text.hasBreak expanded then .error (.commandSpansLines command)
  else if Text.isBlank expanded then .error .commandBlank
  else match replacing, family with
    | false, _ => .ok [.code expanded]
    | true, .unix => .ok [.code ("exec " ++ expanded)]
    | true, .windows => .error .cannotReplaceShell

/-- The lines of a text that is written as it is; none for an empty text. -/
def interpretLines (family : Family) (text : String) : List Line :=
  let expanded := Token.expand family text
  if expanded.isEmpty then [] else (Text.lines expanded).map Line.code

/-- The lines of a payload, tokens replaced; one payload line may become several. -/
def payloadLines (family : Family) (payload : List String) : List String :=
  payload.flatMap fun line => Text.lines (Token.expand family line)

/-- The lines that append a payload to a file. Tokens may have made a line that ends the
here-document, so a shell script tests the payload again. -/
def appendFileLines (family : Family) (path : String) (payload : List String) :
    Except Refusal (List Line) :=
  match family with
  | .unix =>
    let written := payloadLines family payload
    match delimiterPlace? written with
    | some place => .error (.delimiterLine place)
    | none => .ok (Shell.hereDocument (Token.expand family (Shell.argument path)) written)
  | .windows =>
    let target := "\"" ++ Token.expand family path ++ "\""
    .ok ((payloadLines family (payload.map Batch.escapeEcho)).map (Batch.echoLine target))

/-- The line that sets a variable, before its tokens are replaced. -/
def exportTemplate (family : Family) (name value : String) : String :=
  match family with
  | .unix => "export " ++ name ++ "=\"" ++ Shell.escape value ++ "\""
  | .windows => "set " ++ name ++ "=" ++ Batch.escapeEcho value

/-- The line that sets a variable. -/
def exportLines (family : Family) (name value : String) : Except Refusal (List Line) :=
  let expanded := Token.expand family (exportTemplate family name value)
  if Text.hasBreak expanded then .error (.valueExpandsToLines name) else .ok [.code expanded]

/-- An argument of a call, quoted where a family needs it. -/
def callArgument : Family → String → String
  | .unix => Shell.argument
  | .windows => Batch.argument

/-- The line of a call, before its tokens are replaced. -/
def callTemplate (family : Family) (function : String) (args : List String) : String :=
  (match family with | .unix => function | .windows => "call :" ++ function)
    ++ String.join (args.map fun arg => " " ++ callArgument family arg)

/-- The line of a call. -/
def callLines (family : Family) (function : String) (args : List String) : List Line :=
  [.code (Token.expand family (callTemplate family function args))]

/-- One line of a comment. -/
def commentLine (family : Family) (text : String) : Line :=
  if text.isEmpty then .code family.commentMarker else .code (family.commentMarker ++ " " ++ text)

/-- The lines of a comment; an empty comment has one. -/
def commentLines (family : Family) (text : String) : List Line :=
  (Text.lines (Token.expand family text)).map (commentLine family)

/-- The line that leaves with an exit code. -/
def leaveLines (family : Family) (code : String) : List Line :=
  let leaving := match family with | .unix => "return " | .windows => "exit /b "
  [.code (Token.expand family (leaving ++ code))]

/-- The lines of a switch, from those of its cases. -/
def switchLines (family : Family) (argument : String) (cases : List (String × List Line)) : List Line :=
  match family with
  | .unix => Shell.caseBlock argument cases
  | .windows => Batch.switch argument cases

/-! ## Trees -/

namespace Statement

mutual

/-- The lines of a statement for a family. -/
def lines (family : Family) : Statement → Except Refusal (List Line)
  | exec command replacing => execLines family command replacing
  | interpret text => .ok (interpretLines family text)
  | appendFile path payload => appendFileLines family path payload
  | list body => linesList family body
  | switchArg index cases =>
    match family.argumentRef? index with
    | none => .error (.argumentOutOfReach index)
    | some argument => do
      let written ← linesCases family cases
      return switchLines family argument written
  | exportVar name value => exportLines family name value
  | call function args => .ok (callLines family function args)
  | comment text => .ok (commentLines family text)
  | leave code => .ok (leaveLines family code)
  termination_by structural s => s

/-- The lines of statements one after another. -/
def linesList (family : Family) : List Statement → Except Refusal (List Line)
  | [] => .ok []
  | s :: ss => do
    let first ← s.lines family
    let rest ← linesList family ss
    return first ++ rest
  termination_by structural ss => ss

/-- The lines of the statement of each case. -/
def linesCases (family : Family) : List (String × Statement) → Except Refusal (List (String × List Line))
  | [] => .ok []
  | (value, s) :: cs => do
    let body ← s.lines family
    let rest ← linesCases family cs
    return (value, body) :: rest
  termination_by structural cs => cs

end

/-- Statements are written one after another: the lines of a longer list are those of its parts. -/
theorem linesList_append (family : Family) (a b : List Statement) :
    linesList family (a ++ b) =
      (do return (← linesList family a) ++ (← linesList family b)) := by
  induction a with
  | nil =>
    simp only [List.nil_append, linesList]
    cases linesList family b <;> rfl
  | cons s ss ih =>
    simp only [List.cons_append, linesList, ih]
    cases s.lines family with
    | error refusal => rfl
    | ok first =>
      cases linesList family ss with
      | error refusal => rfl
      | ok rest =>
        cases linesList family b with
        | error refusal => rfl
        | ok others => simp [bind, Except.bind, pure, Except.pure]

/-- Refuses more than one switch in a batch file, where all switches share their labels. -/
def checkSwitchCount (family : Family) (count : Nat) : Except Refusal Unit :=
  if family = .windows ∧ 1 < count then .error (.tooManySwitches count) else .ok ()

/-- The text of a statement for a family. -/
def render (family : Family) (s : Statement) : Except Refusal String := do
  checkSwitchCount family s.switchCount
  let written ← s.lines family
  return Line.join family written

end Statement
end Scriptwright
