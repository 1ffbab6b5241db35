/-
How a text is written into a batch file so that the command interpreter reads it
back: with carets, with doubled percent signs, as an argument of a `call`. As in
a shell script, tokens in the text are replaced afterwards and stay live.
-/
import Scriptwright.Text.Blank

namespace Scriptwright.Batch

/-- Whether a character is an operator or the caret itself. -/
def isOperator (c : Char) : Bool :=
  "^&|<>()".toList.contains c

/-- An operator gets a caret. -/
def escapeChar (c : Char) : List Char :=
  if isOperator c then ['^', c] else [c]

/-- A text whose operators are taken literally. -/
def escape (text : String) : String :=
  Text.flatMap escapeChar text

/-- A percent sign, which would start a variable reference, is doubled. -/
def percentChar (c : Char) : List Char :=
  if c = '%' then ['%', '%'] else [c]

/-- A text whose percent signs are taken literally. -/
def escapePercent (text : String) : String :=
  Text.flatMap percentChar text

/-- A text as the rest of an `echo` or `set` line. -/
def escapeEcho (text : String) : String :=
  escapePercent (escape text)

/-- Whether a character of an argument asks for quotes. -/
def isSplitChar (c : Char) : Bool :=
  Text.isBlankChar c || "\"&|<>^(),;=".toList.contains c

/-- Whether an argument needs quotes. -/
def needsQuotes (text : String) : Bool :=
  text.isEmpty || text.toList.any isSplitChar

/-- A double quote inside quotes is doubled. -/
def doubleQuoteChar (c : Char) : List Char :=
  if c = '\x22' then ['\x22', '\x22'] else [c]

/-- A text as one argument of a `call`. -/
def argument (text : String) : String :=
  if needsQuotes text then "\"" ++ Text.flatMap doubleQuoteChar text ++ "\"" else text

end Scriptwright.Batch
