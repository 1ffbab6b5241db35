/-
What can be wrong with the spelling of a JSON text, and where.
-/
namespace Scriptwright.Json

/-- The ways in which a text is no JSON. -/
inductive Flaw where
  /-- The text ends where a value is wanted, or inside a word or number. -/
  | endInValue
  /-- The text ends inside a list. -/
  | endInList
  /-- The text ends inside an object. -/
  | endInObject
  /-- The text ends inside a string. -/
  | endInString
  /-- No value starts like this. -/
  | expectedValue
  /-- A word that begins like `null`, `true` or `false` goes on otherwise. -/
  | expectedWord
  /-- A number is spelled wrong. -/
  | invalidNumber
  /-- A number is too large for a floating-point value. -/
  | numberOutOfRange
  /-- A list element is followed by neither a comma nor the bracket. -/
  | expectedCommaOrBracket
  /-- An object's value is followed by neither a comma nor the brace. -/
  | expectedCommaOrBrace
  /-- A key is not followed by a colon. -/
  | expectedColon
  /-- Something other than a string where a key is wanted. -/
  | keyNotString
  /-- A bracket or brace right after a comma. -/
  | trailingComma
  /-- Something after what was to be read. -/
  | trailingCharacters
  /-- An escape that strings do not have. -/
  | invalidEscape
  /-- The first half of a pair of escapes without the second. -/
  | endOfHexEscape
  /-- One half of a pair of escapes where the other is wanted. -/
  | loneSurrogate
  /-- A control character inside a string. -/
  | controlCharacter
  /-- Brackets nested too deep. -/
  | tooDeep
  deriving DecidableEq, Repr

/-- Whether a flaw is that the text ends too early. -/
def Flaw.isEnd : Flaw → Bool
  | .endInValue | .endInList | .endInObject | .endInString => true
  | _ => false

/-- The message of a flaw. -/
def Flaw.message : Flaw → String
  | .endInValue => "EOF while parsing a value"
  | .endInList => "EOF while parsing a list"
  | .endInObject => "EOF while parsing an object"
  | .endInString => "EOF while parsing a string"
  | .expectedValue => "expected value"
  | .expectedWord => "expected ident"
  | .invalidNumber => "invalid number"
  | .numberOutOfRange => "number out of range"
  | .expectedCommaOrBracket => "expected \x60,\x60 or \x60]\x60"
  | .expectedCommaOrBrace => "expected \x60,\x60 or \x60\x7d\x60"
  | .expectedColon => "expected \x60:\x60"
  | .keyNotString => "key must be a string"
  | .trailingComma => "trailing comma"
  | .trailingCharacters => "trailing characters"
  | .invalidEscape => "invalid escape"
  | .endOfHexEscape => "unexpected end of hex escape"
  | .loneSurrogate => "lone leading surrogate in hex escape"
  | .controlCharacter => "control character (\\u0000-\\u001F) found while parsing a string"
  | .tooDeep => "recursion limit exceeded"

/-- A flaw and the place that is reported for it: how many bytes of the text come before. -/
structure Fault where
  flaw : Flaw
  place : Nat
  deriving DecidableEq, Repr

/-- Where reading stands: how many bytes are behind, and the characters ahead. -/
structure Cursor where
  offset : Nat
  rest : List Char
  deriving DecidableEq, Repr

/-- The cursor some bytes and as many characters further on. -/
def Cursor.advance (n : Nat) (cur : Cursor) : Cursor :=
  ⟨cur.offset + n, cur.rest.drop n⟩

/-- How many bytes some characters take. -/
def byteLength (cs : List Char) : Nat :=
  cs.foldr (fun c n => c.utf8Size + n) 0

end Scriptwright.Json
