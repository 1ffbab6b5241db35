/-
The shortest decimal that stands for a binary floating-point number of 64 bits.
A finite number is a significand times a power of two, and every real of an
interval around it rounds to it, the ends included if the significand is even.
For one digit, two digits and so on the two neighbours of the number among the
decimals of so many digits are tried, in whole-number arithmetic; the first
number of digits with one in the interval wins, and of two the nearer, or the
even one.
-/
namespace Scriptwright.Decimal

/-- A finite positive number: `significand * 2 ^ exponent`. The number below it is half as
far away as the one above it when the significand has just become as small as it gets. -/
structure Binary where
  significand : Nat
  exponent : Int
  nearBelow : Bool
  deriving DecidableEq, Repr

/-- How many values the 52 bits of a fraction have, which is also the first bit of a
significand that is as long as it gets. -/
def fractions : Nat := 0x10000000000000

/-- The number that bits encode, its sign aside. -/
def Binary.ofBits (bits : Nat) : Binary :=
  let biased := bits / fractions % 0x800
  let fraction := bits % fractions
  if biased = 0 then ⟨fraction, -1074, false⟩
  else ⟨fraction + fractions, (biased : Int) - 1075, fraction = 0 && 1 < biased⟩

/-- A decimal: `digits * 10 ^ exponent`. -/
structure Digits where
  digits : Nat
  exponent : Int
  deriving DecidableEq, Repr

/-- A power as a numerator and a denominator. -/
def ratio (base : Nat) (exponent : Int) : Nat × Nat :=
  (Nat.pow base exponent.toNat, Nat.pow base (-exponent).toNat)

/-- The decimal of a given exponent that is nearest to a number, if it rounds to it. All is
counted in quarters of the last place of the significand. -/
def Binary.onGrid? (b : Binary) (exponent : Int) : Option Digits :=
  let (up, down) := ratio 2 (b.exponent - 2)
  let (unitUp, unitDown) := ratio 10 exponent
  let real := fun quarters : Nat => quarters * up * unitDown
  let grid := fun digits : Nat => digits * unitUp * down
  let low := real (4 * b.significand - if b.nearBelow then 1 else 2)
  let value := real (4 * b.significand)
  let high := real (4 * b.significand + 2)
  let inside := fun digits : Nat =>
    if b.significand % 2 = 0 then low ≤ grid digits && grid digits ≤ high
    else low < grid digits && grid digits < high
  let below := value / (unitUp * down)
  let above := below + 1
  match inside below && below != 0, inside above with
  | true, true =>
    let before := value - grid below
    let after := grid above - value
    if before < after || before == after && below % 2 == 0 then some ⟨below, exponent⟩
    else some ⟨above, exponent⟩
  | true, false => some ⟨below, exponent⟩
  | false, true => some ⟨above, exponent⟩
  | false, false => none

/-- The place of the first digit of a number that is not below one. -/
def leadingPlace (n : Nat) : Nat :=
  (Nat.toDigits 10 n).length - 1

/-- The decimal exponent of a number's first digit. -/
def Binary.firstPlace (b : Binary) : Int :=
  let (up, down) := ratio 2 b.exponent
  if down ≤ b.significand * up then leadingPlace (b.significand * up / down)
  else -(leadingPlace ((down - 1) / (b.significand * up)) : Int) - 1

/-- A decimal without zeros at its end. -/
def Digits.trimmed (fuel : Nat) (d : Digits) : Digits :=
  match fuel with
  | 0 => d
  | fuel + 1 => if d.digits % 10 = 0 then trimmed fuel ⟨d.digits / 10, d.exponent + 1⟩ else d

/-- The shortest decimal that rounds to a number. Seventeen digits always do. -/
def Binary.shortest (b : Binary) : Digits :=
  let grids := (List.range 17).map fun count : Nat => b.firstPlace - (count : Int)
  ((grids.findSome? b.onGrid?).getD ⟨0, 0⟩).trimmed 20

/-- A decimal written out: in full when its first digit stands from the fifth place after the
point to the sixteenth before it, else with an exponent and its sign. -/
def Digits.text (d : Digits) : String :=
  let ds := Nat.toDigits 10 d.digits
  let first : Int := d.exponent + (ds.length - 1 : Nat)
  if first < -5 ∨ 15 < first then
    let rest := ds.drop 1
    String.ofList (ds.take 1) ++ (if rest.isEmpty then "" else "." ++ String.ofList rest) ++ "e"
      ++ (if 0 ≤ first then "+" else "-") ++ toString first.natAbs
  else if first < 0 then
    "0." ++ String.ofList (List.replicate (first.natAbs - 1) '0' ++ ds)
  else
    let whole := ds.take (first.toNat + 1)
    let fraction := ds.drop (first.toNat + 1)
    String.ofList (whole ++ List.replicate (first.toNat + 1 - ds.length) '0') ++ "."
      ++ (if fraction.isEmpty then "0" else String.ofList fraction)

/-- The value of the highest of 64 bits. -/
def signBit : Nat := 0x8000000000000000

/-- The text of a finite floating-point value. -/
def ofFloat (x : Float) : String :=
  let bits := x.toBits.toNat
  let sign := if bits / signBit = 1 then "-" else ""
  if bits % signBit = 0 then sign ++ "0.0" else sign ++ (Binary.ofBits bits).shortest.text

example : (Binary.ofBits 0x3FB999999999999A).shortest.text = "0.1" := by decide +kernel
example : (Binary.ofBits 0x43F0000000000000).shortest.text = "1.8446744073709552e+19" := by decide +kernel
example : (Binary.ofBits 1).shortest.text = "5e-324" := by decide +kernel
example : (Binary.ofBits 0x44B52D02C7E14AF6).shortest.text = "1e+23" := by decide +kernel

end Scriptwright.Decimal
