/-
The two families of systems a script is written for, and what differs between
them as plain data: line ends, separators, well-known directories, the spelling
of a variable reference and of a positional argument.
-/
import Scriptwright.Text.Blank

namespace Scriptwright

/-- Whom a script is for: a POSIX shell, or the Windows command interpreter. -/
inductive Family where
  | unix
  | windows
  deriving DecidableEq, Repr

namespace Family

/-- The family of the host, for which a script is written when nothing else is asked. -/
def host : Family := .unix

/-- The name shown in messages. -/
def display : Family → String
  | .unix => "UNIX"
  | .windows => "WINDOWS"

/-- What ends each line of a script. -/
def lineTerminator : Family → String
  | .unix => "\n"
  | .windows => "\r\n"

/-- What stands between the names of a path. -/
def fileSeparator : Family → String
  | .unix => "/"
  | .windows => "\\"

/-- What stands between the entries of a search path. -/
def pathSeparator : Family → String
  | .unix => ":"
  | .windows => ";"

/-- The directory for temporary files. -/
def tempDir : Family → String
  | .unix => "/tmp"
  | .windows => "%TEMP%"

/-- The home directory, as a variable reference. -/
def homeDir : Family → String
  | .unix => "$HOME"
  | .windows => "%USERPROFILE%"

/-- The name of the user, as a variable reference. -/
def currentUser : Family → String
  | .unix => "$USER"
  | .windows => "%USERNAME%"

/-- The root of the file system. -/
def rootDir : Family → String
  | .unix => "/"
  | .windows => "c:\\"

/-- What starts a comment line. -/
def commentMarker : Family → String
  | .unix => "#"
  | .windows => "@rem"

/-- A reference to a variable by its name. -/
def variableRef (family : Family) (name : String) : String :=
  match family with
  | .unix => "$" ++ name
  | .windows => "%" ++ name ++ "%"

/-- A reference to the positional argument of a number, counted from 1. A batch file
can name only the first nine; a shell needs braces from the tenth on. -/
def argumentRef? (family : Family) (index : Nat) : Option String :=
  match family with
  | .unix =>
    if index ≤ 9 then some ("$" ++ toString index) else some ("$\x7b" ++ toString index ++ "\x7d")
  | .windows =>
    if 1 ≤ index ∧ index ≤ 9 then some ("%" ++ toString index) else none

/-- The family of a name as users write it, white space around it and case aside. -/
def ofName? (name : String) : Option Family :=
  let name := Text.lowerAscii (Text.trim name)
  if name ∈ ["unix", "linux", "posix", "sh"] then some .unix
  else if name ∈ ["windows", "win", "batch", "cmd"] then some .windows
  else none

theorem argumentRef?_unix_isSome (index : Nat) : (argumentRef? .unix index).isSome := by
  simp only [argumentRef?]
  split <;> rfl

theorem argumentRef?_windows_eq_none_iff {index : Nat} :
    argumentRef? .windows index = none ↔ index = 0 ∨ 9 < index := by
  simp only [argumentRef?]
  split <;> simp <;> omega

end Family
end Scriptwright
