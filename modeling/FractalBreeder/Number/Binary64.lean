/-!
A finite binary64 number is a natural number times a power of two. This module takes such a
number apart, rounds a quotient of natural numbers to the nearest one, and gives the exact
remainder of a truncated division.
-/
namespace FractalBreeder.Binary64

def nan : Float := Float.ofBits 0x7ff8000000000000

def isNegative (x : Float) : Bool := x.toBits >>> 63 == 1

/-- The eleven exponent bits. -/
def biased (x : Float) : Nat := (x.toBits >>> 52 &&& 0x7ff).toNat

/-- The magnitude of a finite number is `significand x * 2 ^ exponent x`. -/
def significand (x : Float) : Nat :=
  let fraction := (x.toBits &&& 0xfffffffffffff).toNat
  if biased x = 0 then fraction else fraction + 0x10000000000000

def exponent (x : Float) : Int :=
  if biased x = 0 then -1074 else (biased x : Int) - 1075

/-- The nearest natural number to `num / den`; a half goes to the even neighbour. -/
def roundHalfEven (num den : Nat) : Nat :=
  let quotient := num / den
  let twice := 2 * (num % den)
  if twice < den then quotient
  else if den < twice then quotient + 1
  else quotient + quotient % 2

/-- Numerator and denominator of `num / den / 2 ^ e`. -/
def scaleDown (num den : Nat) (e : Int) : Nat × Nat :=
  (num <<< (-e).toNat, den <<< e.toNat)

/-- The exponent of the last place of `num / den`: the significand then has 53 bits, or fewer
where the smallest exponent is reached. -/
def lastPlace (num den : Nat) : Int :=
  let guess : Int := (num.log2 : Int) - den.log2 - 52
  let (scaledNum, scaledDen) := scaleDown num den guess
  max (-1074) (if scaledNum < scaledDen <<< 52 then guess - 1 else guess)

/-- The bits of the binary64 number nearest to `num / den`, ties to even; a number beyond the
largest finite one is infinite. A significand that rounds up to the next power of two carries
into the exponent by itself. -/
def magnitudeBits (num den : Nat) : Nat :=
  if num = 0 then 0
  else
    let e := lastPlace num den
    let (scaledNum, scaledDen) := scaleDown num den e
    min 0x7ff0000000000000 ((e + 1074).toNat <<< 52 + roundHalfEven scaledNum scaledDen)

def ofRatio (negative : Bool) (num den : Nat) : Float :=
  Float.ofBits (UInt64.ofNat ((if negative then 0x8000000000000000 else 0) + magnitudeBits num den))

def infinity (negative : Bool) : Float :=
  Float.ofBits (if negative then 0xfff0000000000000 else 0x7ff0000000000000)

/-- The number `m * 2 ^ e`, rounded where it has no exact form. -/
def ofScaled (negative : Bool) (m : Nat) (e : Int) : Float :=
  ofRatio negative (m <<< e.toNat) (1 <<< (-e).toNat)

def ofInt (n : Int) : Float := ofRatio (n < 0) n.natAbs 1

/-- The exact remainder of a division that truncates; it has the sign of the dividend. -/
def remainder (x y : Float) : Float :=
  if x.isNaN || y.isNaN || x.isInf || significand y == 0 then nan
  else if y.isInf then x
  else
    let e := min (exponent x) (exponent y)
    let dividend := significand x <<< (exponent x - e).toNat
    let divisor := significand y <<< (exponent y - e).toNat
    ofScaled (isNegative x) (dividend % divisor) e

end FractalBreeder.Binary64
