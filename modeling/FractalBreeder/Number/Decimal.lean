import FractalBreeder.Number.Binary64

/-!
Decimal numbers: reading a literal, rounding it to the nearest binary64 number, and writing it
in positional notation.
-/
namespace FractalBreeder

/-- The number `coefficient * 10 ^ exponent`. -/
structure Decimal where
  coefficient : Nat
  exponent : Int
  deriving DecidableEq, Repr

namespace Decimal

def isDigit (c : Char) : Bool := '0' ≤ c && c ≤ '9'

def digitValue (c : Char) : Nat := c.toNat - '0'.toNat

def natOfDigits (cs : List Char) : Nat :=
  cs.foldl (fun n c => 10 * n + digitValue c) 0

/-- An optional sign; no sign counts as plus. -/
def readSign : List Char → Bool × List Char
  | '-' :: rest => (true, rest)
  | '+' :: rest => (false, rest)
  | rest => (false, rest)

/-- What may follow the digits of a literal: nothing, or an exponent that reaches to the end. -/
def readExponent? : List Char → Option Int
  | [] => some 0
  | c :: rest =>
    if c = 'e' ∨ c = 'E' then
      let (negative, digits) := readSign rest
      if digits.isEmpty || !digits.all isDigit then none
      else some (if negative then -(natOfDigits digits : Int) else natOfDigits digits)
    else none

/-- Reads digits with at most one point and at least one digit, and an optional exponent. -/
def read? (cs : List Char) : Option Decimal :=
  let whole := cs.takeWhile isDigit
  let (fraction, rest) :=
    match cs.dropWhile isDigit with
    | '.' :: rest => (rest.takeWhile isDigit, rest.dropWhile isDigit)
    | rest => ([], rest)
  if whole.isEmpty && fraction.isEmpty then none
  else (readExponent? rest).map fun e =>
    ⟨natOfDigits (whole ++ fraction), e - fraction.length⟩

/-- The integers of 64 bits with a sign. -/
def signed64? (n : Int) : Option Int :=
  if -0x8000000000000000 ≤ n ∧ n < 0x8000000000000000 then some n else none

/-- The number `n * 10 ^ e`, or `n` where `e` is negative. -/
def scale (n : Nat) (e : Int) : Nat := n * Nat.pow 10 e.toNat

/-- The nearest binary64 number. The second and third case keep the powers of ten small: such a
number is beyond the largest finite one, or below half of the smallest positive one. -/
def toFloat (negative : Bool) (d : Decimal) : Float :=
  if d.coefficient = 0 then Binary64.ofRatio negative 0 1
  else if 310 < d.exponent then Binary64.infinity negative
  else if d.exponent + ((d.coefficient.log2 + 1) / 3 + 1 : Nat) ≤ -324 then
    Binary64.ofRatio negative 0 1
  else Binary64.ofRatio negative (scale d.coefficient d.exponent) (scale 1 (-d.exponent))

/-- Drops zeros from the end of a fraction, at most as many as given. -/
def trim : Nat → Decimal → Decimal
  | 0, d => d
  | count + 1, d =>
    if d.exponent < 0 && d.coefficient % 10 == 0 then trim count ⟨d.coefficient / 10, d.exponent + 1⟩
    else d

/-- The same number as it is written: the exponent is not positive, and a fraction does not end
in a zero. -/
def plain (d : Decimal) : Decimal :=
  if 0 ≤ d.exponent then ⟨scale d.coefficient d.exponent, 0⟩
  else trim (-d.exponent).toNat d

/-- Digits with a point where the exponent puts it, for a number whose exponent is not positive. -/
def positional (d : Decimal) : List Char :=
  let digits := Nat.toDigits 10 d.coefficient
  let places := (-d.exponent).toNat
  if places = 0 then digits
  else if places < digits.length then
    digits.take (digits.length - places) ++ '.' :: digits.drop (digits.length - places)
  else '0' :: '.' :: List.replicate (places - digits.length) '0' ++ digits

end Decimal

end FractalBreeder
