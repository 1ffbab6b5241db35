/-
Strings in a JSON text, from behind the opening quote. `Quoted.read` gives the
text that is meant; `Quoted.skip` only finds the end, and so does not mind
escapes for halves of characters that do not pair.
-/
import Scriptwright.Json.Flaw

namespace Scriptwright.Json.Quoted

/-- Whether a number is the first half of a pair. -/
def isLeading (n : Nat) : Bool :=
  0xD800 ≤ n && n ≤ 0xDBFF

/-- Whether a number is the second half of a pair. -/
def isTrailing (n : Nat) : Bool :=
  0xDC00 ≤ n && n ≤ 0xDFFF

/-- The character of a pair. -/
def ofPair (leading trailing : Nat) : Char :=
  Char.ofNat (0x10000 + (leading - 0xD800) * 0x400 + (trailing - 0xDC00))

/-- The value of a digit of base sixteen. -/
def hexValue? (c : Char) : Option Nat :=
  if c.isDigit then some (c.toNat - '0'.toNat)
  else if 'a' ≤ c ∧ c ≤ 'f' then some (c.toNat - 'a'.toNat + 10)
  else if 'A' ≤ c ∧ c ≤ 'F' then some (c.toNat - 'A'.toNat + 10)
  else none

/-- The number of four digits of base sixteen. -/
def fourHex? : List Char → Option Nat
  | a :: b :: c :: d :: _ => do
    let a ← hexValue? a
    let b ← hexValue? b
    let c ← hexValue? c
    let d ← hexValue? d
    return ((a * 16 + b) * 16 + c) * 16 + d
  | _ => none

/-- The number of the four digits ahead. -/
def hexAt (offset : Nat) (cs : List Char) : Except Fault Nat :=
  match fourHex? cs with
  | some n => .ok n
  | none =>
    let ahead := byteLength (cs.take 4)
    if ahead < 4 then .error ⟨.endInString, offset + ahead⟩ else .error ⟨.invalidEscape, offset + 4⟩

/-- The character of an escape from behind its letter `u`, and how many characters it takes.
A character that needs a pair is spelled by two escapes. -/
def unicodeAt (offset : Nat) (cs : List Char) : Except Fault (Char × Nat) := do
  let n ← hexAt offset cs
  if isTrailing n then .error ⟨.loneSurrogate, offset + 4⟩
  else if !isLeading n then return (Char.ofNat n, 4)
  else match cs.drop 4 with
    | [] => .error ⟨.endInString, offset + 4⟩
    | '\\' :: [] => .error ⟨.endInString, offset + 5⟩
    | '\\' :: 'u' :: rest => do
      let m ← hexAt (offset + 6) rest
      if isTrailing m then return (ofPair n m, 10) else .error ⟨.loneSurrogate, offset + 10⟩
    | '\\' :: _ :: _ => .error ⟨.endOfHexEscape, offset + 6⟩
    | _ :: _ => .error ⟨.endOfHexEscape, offset + 5⟩

/-- The character of an escape of one letter. -/
def letterEscape? (c : Char) : Option Char :=
  if c = '\x22' ∨ c = '\\' ∨ c = '/' then some c
  else if c = 'b' then some '\x08'
  else if c = 'f' then some '\x0c'
  else if c = 'n' then some '\n'
  else if c = 'r' then some '\r'
  else if c = 't' then some '\t'
  else none

/-- The character of an escape from behind its backslash, and how many characters it takes. -/
def escapeAt (offset : Nat) : List Char → Except Fault (Char × Nat)
  | [] => .error ⟨.endInString, offset⟩
  | c :: cs =>
    match letterEscape? c with
    | some d => .ok (d, 1)
    | none =>
      if c = 'u' then do
        let (d, taken) ← unicodeAt (offset + 1) cs
        return (d, taken + 1)
      else .error ⟨.invalidEscape, offset + 1⟩

/-- Whether a character may not stand in a string as itself. -/
def isControl (c : Char) : Bool :=
  c.toNat < 0x20

/-- The text of the string ahead, after some characters that an escape has already taken. -/
def readFrom (taken offset : Nat) : List Char → Except Fault (List Char × Cursor)
  | [] => .error ⟨.endInString, offset⟩
  | c :: cs =>
    match taken with
    | taken + 1 => readFrom taken (offset + 1) cs
    | 0 =>
      if c = '\x22' then .ok ([], ⟨offset + 1, cs⟩)
      else if c = '\\' then
        match escapeAt (offset + 1) cs with
        | .error fault => .error fault
        | .ok (d, taken) => do
          let (text, cur) ← readFrom taken (offset + 1) cs
          return (d :: text, cur)
      else if isControl c then .error ⟨.controlCharacter, offset + 1⟩
      else do
        let (text, cur) ← readFrom 0 (offset + c.utf8Size) cs
        return (c :: text, cur)

/-- The text of the string ahead, and what follows it. -/
def read (cur : Cursor) : Except Fault (String × Cursor) := do
  let (text, cur) ← readFrom 0 cur.offset cur.rest
  return (String.ofList text, cur)

/-- How many characters an escape takes from behind its backslash, if it is only skipped. -/
def skipEscapeAt (offset : Nat) : List Char → Except Fault Nat
  | [] => .error ⟨.endInString, offset⟩
  | c :: cs =>
    if (letterEscape? c).isSome then .ok 1
    else if c = 'u' then do
      let _ ← hexAt (offset + 1) cs
      return 5
    else .error ⟨.invalidEscape, offset + 1⟩

/-- What follows the string ahead, after some characters that an escape has already taken. -/
def skipFrom (taken offset : Nat) : List Char → Except Fault Cursor
  | [] => .error ⟨.endInString, offset⟩
  | c :: cs =>
    match taken with
    | taken + 1 => skipFrom taken (offset + 1) cs
    | 0 =>
      if c = '\x22' then .ok ⟨offset + 1, cs⟩
      else if c = '\\' then
        match skipEscapeAt (offset + 1) cs with
        | .error fault => .error fault
        | .ok taken => skipFrom taken (offset + 1) cs
      else if isControl c then .error ⟨.controlCharacter, offset⟩
      else skipFrom 0 (offset + c.utf8Size) cs

/-- What follows the string ahead. -/
def skip (cur : Cursor) : Except Fault Cursor :=
  skipFrom 0 cur.offset cur.rest

end Scriptwright.Json.Quoted
