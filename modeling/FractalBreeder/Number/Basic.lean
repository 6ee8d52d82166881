import FractalBreeder.Number.Shortest

/-!
The numbers of expressions and settings: binary64 numbers, and what is no number. The latter has a
sign too, which floats do not keep.
-/
namespace FractalBreeder

inductive Number where
  | float (x : Float)
  /-- What is no number, with a minus sign; without one it is a float. -/
  | negativeNan
  deriving Repr, Inhabited

namespace Number

instance : Coe Float Number := ⟨float⟩

/-- What is no number, with a minus sign or without. -/
def nan (negative : Bool) : Number := if negative then negativeNan else float Binary64.nan

/-- The number with the given sign, exponent and fraction bits. -/
def ofBits (bits : UInt64) : Number :=
  let x := Float.ofBits bits
  if x.isNaN then nan (bits >>> 63 == 1) else float x

def value : Number → Float
  | float x => x
  | negativeNan => Binary64.nan

/-- Numbers are compared by their values; what is no number equals nothing. -/
instance : BEq Number := ⟨fun a b => a.value == b.value⟩

def isNegative : Number → Bool
  | float x => Binary64.isNegative x
  | negativeNan => true

/-- The characters of the value; what is no number shows no sign. -/
def text (a : Number) : List Char := Shortest.text a.value

def negated : Number → Number
  | float x => if x.isNaN then negativeNan else float (-x)
  | negativeNan => nan false

/-- The result of an operation. Where it is no number, it is the first operand that is none either;
if both are numbers, it has a minus sign. -/
def apply (op : Float → Float → Float) (a b : Number) : Number :=
  let result := op a.value b.value
  if !result.isNaN then float result
  else if a.value.isNaN then a
  else if b.value.isNaN then b
  else negativeNan

def add : Number → Number → Number := apply (· + ·)

/-- The exact remainder of a truncated division. -/
def remainder : Number → Number → Number := apply Binary64.remainder

end Number

end FractalBreeder
