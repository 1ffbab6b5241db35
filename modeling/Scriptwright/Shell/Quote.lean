/-
How a text is written into a shell script so that the shell reads it back: the
inside of double quotes, a command's argument, a pattern of a `case`. The text
may still hold tokens; they are replaced afterwards, so a reference that a token
stands for stays live between the quotes.
-/
import Scriptwright.Text.Basic

namespace Scriptwright.Shell

/-- Whether a character keeps a meaning inside double quotes. -/
def isLive (c : Char) : Bool :=
  c == '\\' || c == '\x22' || c == '$' || c == '\x60'

/-- A character inside double quotes: a live one gets a backslash. An exclamation mark
is not live, since a script runs without history. -/
def escapeChar (c : Char) : List Char :=
  if isLive c then ['\\', c] else [c]

/-- A text as the inside of double quotes. -/
def escape (text : String) : String :=
  Text.flatMap escapeChar text

/-- Whether a character may stand in a bare argument. -/
def isBareChar (c : Char) : Bool :=
  c.isAlphanum || "_./:=@%+,-\x7b\x7d".toList.contains c

/-- Whether an argument needs no quotes. -/
def isBare (text : String) : Bool :=
  !text.isEmpty && text.toList.all isBareChar

/-- A text as one argument of a command. -/
def argument (text : String) : String :=
  if isBare text then text else "\"" ++ escape text ++ "\""

/-- Whether a character may stand in a bare pattern. -/
def isPatternChar (c : Char) : Bool :=
  Text.isWordChar c || c == '.' || c == '-'

/-- A character between single quotes: a single quote closes them, stands behind a
backslash, and opens them again. -/
def singleQuotedChar (c : Char) : List Char :=
  if c = '\x27' then ['\x27', '\\', '\x27', '\x27'] else [c]

/-- Whether a pattern needs no quotes. -/
def isBarePattern (text : String) : Bool :=
  !text.isEmpty && text.toList.all isPatternChar

/-- A text as a pattern that matches that text alone. -/
def pattern (text : String) : String :=
  if isBarePattern text then text else "\x27" ++ Text.flatMap singleQuotedChar text ++ "\x27"

end Scriptwright.Shell
