/-
The lexemes of a JSON text: brackets, commas, colons, words, numbers and
strings, each with where it starts and stops. Two readers use them. One wants
the value, the other only skips it and is content with less; so a lexeme holds
what each of them would make of it, a fault included. The list ends with the
text, or with the first lexeme that not even the second reader gets past.
-/
import Scriptwright.Json.Numeral
import Scriptwright.Json.Quoted

namespace Scriptwright.Json

/-- A value that is neither list nor object. -/
inductive Scalar where
  | null
  | bool (value : Bool)
  | number (value : Number)
  | string (value : String)
  deriving Repr, BEq

/-- What a lexeme is. -/
inductive Lexeme where
  | openBracket
  | closeBracket
  | openBrace
  | closeBrace
  | comma
  | colon
  /-- A word or a number. -/
  | plain (value : Except Fault Scalar) (skipped : Except Fault Unit)
  | string (value : Except Fault String) (skipped : Except Fault Unit)
  /-- A character that starts no lexeme. -/
  | stray

/-- A lexeme with the bytes it takes: the first, and the one after the last. -/
structure Located where
  lexeme : Lexeme
  start : Nat
  stop : Nat

namespace Lexeme

/-- Whether a character may stand between lexemes. -/
def isSpace (c : Char) : Bool :=
  c == ' ' || c == '\n' || c == '\t' || c == '\r'

/-- The cursor after the space ahead. -/
def skipSpace (offset : Nat) : List Char → Cursor
  | [] => ⟨offset, []⟩
  | c :: cs => if isSpace c then skipSpace (offset + 1) cs else ⟨offset, c :: cs⟩

/-- The cursor behind the rest of a word, if that is what is ahead. -/
def scanWord (offset : Nat) : List Char → List Char → Except Fault Cursor
  | [], cs => .ok ⟨offset, cs⟩
  | _ :: _, [] => .error ⟨.endInValue, offset⟩
  | w :: ws, c :: cs => if c = w then scanWord (offset + 1) ws cs else .error ⟨.expectedWord, offset + 1⟩

/-- A word from its first letter on. -/
def readWord (value : Scalar) (word : String) (cur : Cursor) : Lexeme × Option Cursor :=
  match scanWord cur.offset word.toList cur.rest with
  | .ok next => (.plain (.ok value) (.ok ()), some next)
  | .error fault => (.plain (.error fault) (.error fault), none)

/-- A number from its first character on. -/
def readNumber (cur : Cursor) : Lexeme × Option Cursor :=
  let value := do
    let (numeral, next) ← Numeral.scan .endInValue cur
    return Scalar.number (← numeral.value next.offset)
  match Numeral.scan .invalidNumber cur with
  | .ok (_, next) => (.plain value (.ok ()), some next)
  | .error fault => (.plain value (.error fault), none)

/-- A string from behind its opening quote on. -/
def readString (cur : Cursor) : Lexeme × Option Cursor :=
  let value := Prod.fst <$> Quoted.read cur
  match Quoted.skip cur with
  | .ok next => (.string value (.ok ()), some next)
  | .error fault => (.string value (.error fault), none)

/-- The lexeme that starts with a character, the first of those ahead; and what follows it,
unless the lexeme is cut off. -/
def read (c : Char) (cur : Cursor) : Lexeme × Option Cursor :=
  if c = '[' then (.openBracket, some (cur.advance 1))
  else if c = ']' then (.closeBracket, some (cur.advance 1))
  else if c = '\x7b' then (.openBrace, some (cur.advance 1))
  else if c = '\x7d' then (.closeBrace, some (cur.advance 1))
  else if c = ',' then (.comma, some (cur.advance 1))
  else if c = ':' then (.colon, some (cur.advance 1))
  else if c = '\x22' then readString (cur.advance 1)
  else if c = '-' ∨ c.isDigit then readNumber cur
  else if c = 'n' then readWord .null "null" cur
  else if c = 't' then readWord (.bool true) "true" cur
  else if c = 'f' then readWord (.bool false) "false" cur
  else (.stray, none)

/-- At most so many lexemes of the characters ahead. -/
def scanFrom : Nat → Cursor → List Located
  | 0, _ => []
  | fuel + 1, cur =>
    let cur := skipSpace cur.offset cur.rest
    match cur.rest with
    | [] => []
    | c :: _ =>
      match read c cur with
      | (lexeme, some next) => ⟨lexeme, cur.offset, next.offset⟩ :: scanFrom fuel next
      | (lexeme, none) => [⟨lexeme, cur.offset, cur.offset⟩]

/-- The lexemes of a text. Each takes a character, so there are no more than characters. -/
def scan (text : String) : List Located :=
  scanFrom text.toList.length ⟨0, text.toList⟩

end Lexeme
end Scriptwright.Json
