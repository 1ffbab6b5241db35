/-
Why a statement or a script is refused. Each way of being refused is one
constructor with the texts it names; its ground, the kind of statement it blames
and its message are functions on it.
-/
import Scriptwright.Family
import Scriptwright.Text.Quoted

namespace Scriptwright

/-- What stands on a line of its own after the text of a here-document. -/
def hereDelimiter : String := "END_OF_FILE"

/-- What the label of each case of a batch file begins with. -/
def caseLabelStart : String := "CASE_"

/-- The ways in which a statement or a script is refused. -/
inductive Refusal where
  /-- A command, its tokens replaced, takes more than one line. -/
  | commandSpansLines (command : String)
  /-- A command, its tokens replaced, is blank. -/
  | commandBlank
  /-- A batch file cannot hand its process over to a command. -/
  | cannotReplaceShell
  /-- The file to append to has a blank path. -/
  | pathBlank
  /-- The file to append to has a path that cannot be written between double quotes. -/
  | pathUnsafe (path : String)
  /-- A line to append, at this place from 0, would end the here-document. -/
  | delimiterLine (place : Nat)
  /-- A variable's name is no identifier. -/
  | variableName (name : String)
  /-- A variable's value has a line break. -/
  | valueSpansLines (name : String)
  /-- A variable's value has a line break once its tokens are replaced. -/
  | valueExpandsToLines (name : String)
  /-- The name of a function to call is no identifier. -/
  | calleeName (name : String)
  /-- An argument of a call has a line break. -/
  | argumentSpansLines (argument : String)
  /-- An exit code is blank or has a line break. -/
  | exitCode (code : String)
  /-- A switch on argument 0. -/
  | argumentZero
  /-- A switch with no cases. -/
  | noCases
  /-- A case value that cannot be written between double quotes. -/
  | caseUnsafe (value : String)
  /-- A case value that an earlier case has already. -/
  | caseRepeated (value : String)
  /-- A case value whose label an earlier case has already. -/
  | caseLabelClash (earlier value label : String)
  /-- A batch file cannot name an argument of this number. -/
  | argumentOutOfReach (index : Nat)
  /-- A batch file has one set of switch labels, and this many switches would use it. -/
  | tooManySwitches (count : Nat)
  /-- A script exports a variable twice. -/
  | variableRepeated (name : String)
  /-- The name of a function of a script is no identifier. -/
  | functionName (name : String)
  /-- The name of a function of a script is a label that scripts use themselves. -/
  | functionReserved (name : String)
  /-- A script defines a function twice. -/
  | functionRepeated (name : String)
  deriving DecidableEq, Repr

namespace Refusal

/-- On what ground something is refused: the data are wrong whatever is done with them, an argument
is outside what is allowed, or a family has no way to say it. -/
inductive Ground where
  | malformed
  | invalidArgument
  | unsupported (family : Family)
  deriving DecidableEq, Repr

/-- The ground of a refusal. -/
def ground : Refusal → Ground
  | commandSpansLines _ | commandBlank | pathUnsafe _ | delimiterLine _ | valueSpansLines _
  | valueExpandsToLines _ | argumentSpansLines _ | caseUnsafe _ | caseRepeated _
  | caseLabelClash .. => .malformed
  | pathBlank | variableName _ | calleeName _ | exitCode _ | argumentZero | noCases
  | variableRepeated _ | functionName _ | functionReserved _ | functionRepeated _ => .invalidArgument
  | cannotReplaceShell | argumentOutOfReach _ | tooManySwitches _ => .unsupported .windows

/-- What is blamed: a kind of statement, or the script. -/
def kind : Refusal → String
  | commandSpansLines _ | commandBlank | cannotReplaceShell => "exec"
  | pathBlank | pathUnsafe _ | delimiterLine _ => "append_file"
  | variableName _ | valueSpansLines _ | valueExpandsToLines _ => "export"
  | calleeName _ | argumentSpansLines _ => "call"
  | exitCode _ => "return"
  | argumentZero | noCases | caseUnsafe _ | caseRepeated _ | caseLabelClash .. | argumentOutOfReach _
  | tooManySwitches _ => "switch_arg"
  | variableRepeated _ | functionName _ | functionReserved _ | functionRepeated _ => "script"

/-- What is wrong, or what is asked for in vain. -/
def reason : Refusal → String
  | commandSpansLines command => "command " ++ Text.quoted command ++ " spans more than one line"
  | commandBlank => "command is empty"
  | cannotReplaceShell => "replacing the shell process"
  | pathBlank => "path is empty"
  | pathUnsafe path => "path " ++ Text.quoted path ++ " contains a double quote or line break"
  | delimiterLine place =>
    "line " ++ toString (place + 1) ++ " equals the here-document delimiter " ++ hereDelimiter
  | variableName name => Text.quoted name ++ " is not a valid variable name"
  | valueSpansLines name => "value of " ++ name ++ " contains a line break"
  | valueExpandsToLines name => "value of " ++ name ++ " expands to more than one line"
  | calleeName name => Text.quoted name ++ " is not a valid function name"
  | argumentSpansLines argument => "argument " ++ Text.quoted argument ++ " contains a line break"
  | exitCode code => Text.quoted code ++ " is not a usable exit code"
  | argumentZero => "argument index is 1-based, got 0"
  | noCases => "no cases given"
  | caseUnsafe value => "case value " ++ Text.quoted value ++ " contains a double quote or line break"
  | caseRepeated value => "case value " ++ Text.quoted value ++ " appears more than once"
  | caseLabelClash earlier value label =>
    "case values " ++ Text.quoted earlier ++ " and " ++ Text.quoted value ++ " both map to label "
      ++ caseLabelStart ++ label
  | argumentOutOfReach index => "argument index " ++ toString index ++ " (only 1 to 9 are addressable)"
  | tooManySwitches count =>
    toString count ++ " switches in one script (batch labels are script-global)"
  | variableRepeated name => "variable " ++ name ++ " is exported twice"
  | functionName name => Text.quoted name ++ " is not a valid function name"
  | functionReserved name => "function name " ++ name ++ " is reserved"
  | functionRepeated name => "function " ++ name ++ " is defined twice"

/-- The whole message. -/
def message (r : Refusal) : String :=
  match r.ground with
  | .malformed => "malformed " ++ r.kind ++ ": " ++ r.reason
  | .invalidArgument => "invalid argument to " ++ r.kind ++ ": " ++ r.reason
  | .unsupported family =>
    r.kind ++ " cannot be rendered for " ++ family.display ++ ": " ++ r.reason ++ " is not supported"

end Refusal
end Scriptwright
