/-
The quoted form of a text, as messages show it: in double quotes, with an escape
for each quote, backslash and character that is not shown as itself.
-/
import Scriptwright.Text.Visible

namespace Scriptwright.Text

/-- A number in base sixteen, with small letters and no leading zero. -/
def hexadecimal (n : Nat) : String :=
  String.ofList (Nat.toDigits 16 n)

/-- One character of a quoted text. -/
def quotedChar (c : Char) : String :=
  if c = '\x00' then "\\0"
  else if c = '\t' then "\\t"
  else if c = '\r' then "\\r"
  else if c = '\n' then "\\n"
  else if c = '\x22' then "\\\""
  else if c = '\\' then "\\\\"
  else if isVisibleChar c then c.toString
  else "\\u\x7b" ++ hexadecimal c.toNat ++ "\x7d"

/-- A text in double quotes, with escapes. -/
def quoted (text : String) : String :=
  "\"" ++ String.ofList (text.toList.flatMap fun c => (quotedChar c).toList) ++ "\""

end Scriptwright.Text
