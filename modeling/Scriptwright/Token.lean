/-
Tokens: names in braces, such as the one for the directory of temporary files,
that stand in a text for what each family calls that thing. A text is cut once,
from left to right, into tokens and plain characters (`Token.scan`), and
`Token.expand` writes each piece out. What a token is replaced by is not looked
at again, and a name that no token has is plain text, braces and all.
-/
import Scriptwright.Family

namespace Scriptwright

/-- What can stand in braces in a text. -/
inductive Token where
  | fileSeparator
  | pathSeparator
  | lineFeed
  | tempDir
  | currentUser
  | homeDir
  | rootDir
  | variableLeft
  | variableRight
  | remark
  | returning
  | exiting
  | arguments
  | shell
  | sourcing
  | exporting
  deriving DecidableEq, Repr

namespace Token

/-- Every token. -/
def all : List Token :=
  [.fileSeparator, .pathSeparator, .lineFeed, .tempDir, .currentUser, .homeDir, .rootDir, .variableLeft,
    .variableRight, .remark, .returning, .exiting, .arguments, .shell, .sourcing, .exporting]

theorem mem_all (t : Token) : t ∈ all := by
  cases t <;> decide

/-- The name of a token, as it stands in the braces. -/
def name : Token → String
  | .fileSeparator => "fs"
  | .pathSeparator => "ps"
  | .lineFeed => "lf"
  | .tempDir => "tmp"
  | .currentUser => "uid"
  | .homeDir => "home"
  | .rootDir => "root"
  | .variableLeft => "varl"
  | .variableRight => "varr"
  | .remark => "rem"
  | .returning => "return"
  | .exiting => "exit"
  | .arguments => "args"
  | .shell => "sh"
  | .sourcing => "source"
  | .exporting => "export"

/-- The token of a name. -/
def ofName? (name : String) : Option Token :=
  all.find? fun t => t.name == name

/-- What a token stands for in a family. -/
def text (family : Family) : Token → String
  | .fileSeparator => family.fileSeparator
  | .pathSeparator => family.pathSeparator
  | .lineFeed => family.lineTerminator
  | .tempDir => family.tempDir
  | .currentUser => family.currentUser
  | .homeDir => family.homeDir
  | .rootDir => family.rootDir
  | .remark => family.commentMarker
  | .variableLeft => match family with | .unix => "$" | .windows => "%"
  | .variableRight => match family with | .unix => "" | .windows => "%"
  | .returning => match family with | .unix => "return" | .windows => "exit /b"
  | .exiting => match family with | .unix => "exit" | .windows => "exit /b"
  | .arguments => match family with | .unix => "$@" | .windows => "%*"
  | .shell => match family with | .unix => "bash" | .windows => "cmd"
  | .sourcing => match family with | .unix => "." | .windows => "@call"
  | .exporting => match family with | .unix => "export" | .windows => "set"

theorem ofName?_name (t : Token) : ofName? t.name = some t := by
  cases t <;> decide

/-! ## Cutting a text into tokens and characters -/

/-- One piece of a text: a token, or a character that is no part of one. -/
inductive Piece where
  | token (t : Token)
  | plain (c : Char)
  deriving DecidableEq, Repr

/-- What follows the opening brace of a token. -/
def afterBrace (t : Token) : List Char :=
  t.name.toList ++ ['\x7d']

/-- The token whose name and closing brace begin a text. -/
def startOf? (cs : List Char) : Option Token :=
  all.find? fun t => (afterBrace t).isPrefixOf cs

/-- The pieces of a text after some characters that a token has already taken. -/
def scanFrom : Nat → List Char → List Piece
  | _, [] => []
  | taken + 1, _ :: cs => scanFrom taken cs
  | 0, c :: cs =>
    if c = '\x7b' then
      match startOf? cs with
      | some t => .token t :: scanFrom (afterBrace t).length cs
      | none => .plain c :: scanFrom 0 cs
    else .plain c :: scanFrom 0 cs

/-- The pieces of a text, in order. -/
def scan (cs : List Char) : List Piece :=
  scanFrom 0 cs

/-- What a piece is written as for a family. -/
def Piece.expand (family : Family) : Piece → List Char
  | .token t => (t.text family).toList
  | .plain c => [c]

/-- A text with each token replaced by what it stands for in a family. -/
def expand (family : Family) (text : String) : String :=
  String.ofList ((scan text.toList).flatMap (Piece.expand family))

theorem scanFrom_eq_drop (n : Nat) (cs : List Char) : scanFrom n cs = scan (cs.drop n) := by
  induction cs generalizing n with
  | nil => cases n <;> simp [scanFrom, scan]
  | cons c cs ih =>
    cases n with
    | zero => rfl
    | succ n => simp [scanFrom, ih]

example : expand .unix "\x7btmp\x7d\x7bfs\x7d\x7ba\x7d\x7b\x7bfs\x7d" = "/tmp/\x7ba\x7d\x7b/" := by decide

end Token
end Scriptwright
