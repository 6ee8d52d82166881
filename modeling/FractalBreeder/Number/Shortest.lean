import FractalBreeder.Number.Decimal

/-!
The shortest decimal text of a binary64 number that reads back to the same number.
-/
namespace FractalBreeder.Shortest

open Binary64

/-- Numerator and denominator of the magnitude of a finite number. -/
def ratio (x : Float) : Nat × Nat :=
  (significand x <<< (exponent x).toNat, 1 <<< (-exponent x).toNat)

/-- Whether `num / den < 10 ^ k`. -/
def below (num den : Nat) (k : Int) : Bool :=
  Decimal.scale num (-k) < Decimal.scale den k

/-- The number of digits before the point of `num / den`, negative where zeros follow the point. -/
def magnitude (num den : Nat) : Int :=
  let guess : Int := ((num.log2 : Int) - den.log2 - 1) * 30103 / 100000
  if below num den guess then guess
  else if below num den (guess + 1) then guess + 1
  else guess + 2

def readsBack (x : Float) (d : Decimal) : Bool :=
  (d.toFloat false).toBits == x.abs.toBits

/-- The better of the two decimals with `count` digits next to the magnitude of `x`, if one of
them reads back from its plain form; of two the nearer, and of two equally near the larger. -/
def neighbour? (x : Float) (count : Nat) : Option Decimal :=
  let (num, den) := ratio x
  let place := magnitude num den - count
  let scaledNum := Decimal.scale num (-place)
  let scaledDen := Decimal.scale den place
  let lower : Decimal := ⟨scaledNum / scaledDen, place⟩
  let upper : Decimal := ⟨scaledNum / scaledDen + 1, place⟩
  let nearer := if 2 * (scaledNum % scaledDen) < scaledDen then [lower, upper] else [upper, lower]
  (nearer.map Decimal.plain).find? (readsBack x)

/-- All digits of the magnitude of a finite number. -/
def exact (x : Float) : Decimal :=
  if 0 ≤ exponent x then ⟨significand x <<< (exponent x).toNat, 0⟩
  else ⟨significand x * Nat.pow 5 (-exponent x).toNat, exponent x⟩

/-- The fewest digits that read back to the magnitude of `x`, in plain form. -/
def decimal (x : Float) : Decimal :=
  ((List.range' 1 17).findSome? (neighbour? x)).getD (exact x)

/-- The magnitude in positional notation, however large or small it is. -/
def digits (x : Float) : List Char := (decimal x).positional

/-- The text of any number. -/
def text (x : Float) : List Char :=
  if x.isNaN then "NaN".toList
  else
    let magnitude := if x.isInf then "inf".toList else if significand x = 0 then ['0'] else digits x
    if isNegative x then '-' :: magnitude else magnitude

end FractalBreeder.Shortest
