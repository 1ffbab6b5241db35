/-
Numbers in a JSON text. `Numeral.scan` finds how a number is spelled and where
it ends; `Numeral.value` says which number it is. A whole number that fits 64
bits is an integer. Every other one is a floating-point value, made from the
digits that fit 64 bits and a power of ten by multiplying or dividing once,
which is not always the nearest such value.
-/
import Scriptwright.Json.Flaw

namespace Scriptwright.Json

/-- A number: an integer of 64 bits, or a floating-point value. -/
inductive Number where
  | integer (value : Int)
  | float (value : Float)
  deriving Repr, BEq

/-- The parts of a spelled number. -/
structure Numeral where
  negative : Bool
  whole : List Char
  fraction : Option (List Char)
  exponent : Option (Bool × List Char)
  deriving DecidableEq, Repr

namespace Numeral

/-! ## Spelling -/

/-- The digits ahead, and what follows them. -/
def digits (cur : Cursor) : List Char × Cursor :=
  let ds := cur.rest.takeWhile Char.isDigit
  (ds, cur.advance ds.length)

/-- The digits before the point; a zero stands alone. The flaw to report at the end of the
text is given, as it depends on what the number is read for. -/
def scanWhole (atEnd : Flaw) (cur : Cursor) : Except Fault (List Char × Cursor) :=
  match cur.rest with
  | [] => .error ⟨atEnd, cur.offset⟩
  | '0' :: rest =>
    if rest.head?.any Char.isDigit then .error ⟨.invalidNumber, cur.offset + 2⟩
    else .ok (['0'], cur.advance 1)
  | c :: _ => if c.isDigit then .ok (digits cur) else .error ⟨.invalidNumber, cur.offset + 1⟩

/-- The digits after the point, if there is a point. -/
def scanFraction (atEnd : Flaw) (cur : Cursor) : Except Fault (Option (List Char) × Cursor) :=
  match cur.rest with
  | '.' :: rest =>
    match rest with
    | [] => .error ⟨atEnd, cur.offset + 1⟩
    | c :: _ =>
      if c.isDigit then
        let (ds, cur) := digits (cur.advance 1)
        .ok (some ds, cur)
      else .error ⟨.invalidNumber, cur.offset + 2⟩
  | _ => .ok (none, cur)

/-- The sign of the exponent: whether it is negative. -/
def scanExponentSign (cur : Cursor) : Bool × Cursor :=
  match cur.rest with
  | '+' :: _ => (false, cur.advance 1)
  | '-' :: _ => (true, cur.advance 1)
  | _ => (false, cur)

/-- The exponent, if there is one. -/
def scanExponent (atEnd : Flaw) (cur : Cursor) : Except Fault (Option (Bool × List Char) × Cursor) :=
  if cur.rest.head? = some 'e' ∨ cur.rest.head? = some 'E' then
    let (negative, cur) := scanExponentSign (cur.advance 1)
    match cur.rest with
    | [] => .error ⟨atEnd, cur.offset⟩
    | c :: _ =>
      if c.isDigit then
        let (ds, cur) := digits cur
        .ok (some (negative, ds), cur)
      else .error ⟨.invalidNumber, cur.offset + 1⟩
  else .ok (none, cur)

/-- The sign of the number: whether it is negative. -/
def scanSign (cur : Cursor) : Bool × Cursor :=
  match cur.rest with
  | '-' :: _ => (true, cur.advance 1)
  | _ => (false, cur)

/-- The number ahead, and what follows it. -/
def scan (atEnd : Flaw) (cur : Cursor) : Except Fault (Numeral × Cursor) := do
  let (negative, cur) := scanSign cur
  let (whole, cur) ← scanWhole atEnd cur
  let (fraction, cur) ← scanFraction atEnd cur
  let (exponent, cur) ← scanExponent atEnd cur
  return (⟨negative, whole, fraction, exponent⟩, cur)

/-! ## Value -/

/-- The value of a digit. -/
def digitValue (c : Char) : Nat :=
  c.toNat - '0'.toNat

/-- Appends digits to a number while it stays within a limit; the digits that remain. -/
def absorb (limit : Nat) : Nat → List Char → Nat × List Char
  | n, [] => (n, [])
  | n, c :: cs =>
    let m := n * 10 + digitValue c
    if m ≤ limit then absorb limit m cs else (n, c :: cs)

/-- The largest integer of 64 bits without a sign. -/
def maxSignificand : Nat := 0xFFFFFFFFFFFFFFFF

/-- The largest exponent that is taken as written. -/
def maxExponent : Nat := 0x7FFFFFFF

/-- The largest power of ten that a floating-point value reaches. -/
def maxPower : Nat := 308

/-- A power of ten as a floating-point value. -/
def powerOfTen (n : Nat) : Float :=
  Float.ofScientific 1 false n

/-- How far integers of 64 bits with a sign go below zero. -/
def maxNegative : Nat := 0x8000000000000000

/-- A floating-point value times a power of ten, unless that is too large. -/
def scale (x : Float) (exponent : Int) : Option Float :=
  if exponent.natAbs ≤ maxPower then
    if 0 ≤ exponent then
      let y := x * powerOfTen exponent.natAbs
      if y.isInf then none else some y
    else some (x / powerOfTen exponent.natAbs)
  else if x == 0.0 then some x
  else if 0 ≤ exponent then none
  else scale (x / powerOfTen maxPower) (exponent + maxPower)
  termination_by exponent.natAbs
  decreasing_by simp only [maxPower] at *; omega

/-- A floating-point value with a sign. -/
def signed (negative : Bool) (x : Float) : Number :=
  .float (if negative then -x else x)

/-- The number of a significand and a power of ten; the place is the end of its text. -/
def ofScientific (negative : Bool) (significand : Nat) (exponent : Int) (stop : Nat) :
    Except Fault Number :=
  match scale (Float.ofNat significand) exponent with
  | some x => .ok (signed negative x)
  | none => .error ⟨.numberOutOfRange, stop⟩

/-- A whole number: an integer where 64 bits hold it. Zero with a sign is a floating-point value. -/
def ofSignificand (negative : Bool) (significand : Nat) : Number :=
  if !negative then .integer significand
  else if significand = 0 ∨ maxNegative < significand then signed true (Float.ofNat significand)
  else .integer (-significand)

/-- The number that is spelled; the place is the end of its text. Digits of the whole part
that 64 bits do not hold count in the exponent, digits of the fraction are let go. -/
def value (n : Numeral) (stop : Nat) : Except Fault Number :=
  let (whole, dropped) := absorb maxSignificand 0 n.whole
  let fraction := n.fraction.getD []
  let (significand, unused) := absorb maxSignificand whole fraction
  let power : Int := dropped.length - (fraction.length - unused.length : Nat)
  match n.exponent with
  | some (negative, ds) =>
    match absorb maxExponent 0 ds with
    | (exponent, []) =>
      ofScientific n.negative significand (if negative then power - exponent else power + exponent) stop
    | (_, _ :: beyond) =>
      if significand ≠ 0 ∧ !negative then .error ⟨.numberOutOfRange, stop - beyond.length⟩
      else .ok (signed n.negative 0.0)
  | none =>
    if n.fraction.isNone ∧ dropped.isEmpty then .ok (ofSignificand n.negative significand)
    else ofScientific n.negative significand power stop

end Numeral
end Scriptwright.Json
