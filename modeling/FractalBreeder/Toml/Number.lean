import FractalBreeder.Number.Basic

/-!
Numbers of the file format. Underscores may stand between digits. An integer has 64 bits with a
sign, and a float has a point or an exponent.
-/
namespace FractalBreeder.Toml

open Decimal (isDigit natOfDigits readSign)

/-- The digits without the single underscores between them. -/
def ungroup (isDigit : Char → Bool) : List Char → Option (List Char)
  | [] => none
  | [c] => if isDigit c then some [c] else none
  | c :: d :: rest =>
    if !isDigit c then none
    else if d = '_' then (ungroup isDigit rest).map (c :: ·)
    else (ungroup isDigit (d :: rest)).map (c :: ·)

def digitOf (c : Char) : Nat :=
  if isDigit c then c.toNat - '0'.toNat
  else if 'a' ≤ c && c ≤ 'f' then c.toNat - 'a'.toNat + 10
  else if 'A' ≤ c && c ≤ 'F' then c.toNat - 'A'.toNat + 10
  else 16

def isDigitOf (base : Nat) (c : Char) : Bool := digitOf c < base

def natOfBase (base : Nat) (digits : List Char) : Nat :=
  digits.foldl (fun n c => base * n + digitOf c) 0

/-- Digits of which the first is no zero, unless it is the only one. -/
def whole? (cs : List Char) : Option (List Char) := do
  let digits ← ungroup isDigit cs
  if digits.head? = some '0' && 1 < digits.length then none else some digits

def integer? (cs : List Char) : Option Int :=
  match cs with
  | '0' :: 'x' :: digits => do Decimal.signed64? (natOfBase 16 (← ungroup (isDigitOf 16) digits))
  | '0' :: 'o' :: digits => do Decimal.signed64? (natOfBase 8 (← ungroup (isDigitOf 8) digits))
  | '0' :: 'b' :: digits => do Decimal.signed64? (natOfBase 2 (← ungroup (isDigitOf 2) digits))
  | _ => do
    let (negative, rest) := readSign cs
    let n := natOfDigits (← whole? rest)
    Decimal.signed64? (if negative then -n else n)

def isGrouped (c : Char) : Bool := isDigit c || c == '_'

/-- A point with digits after it, or nothing. -/
def fraction? : List Char → Option (List Char × List Char)
  | '.' :: rest => do
    let digits ← ungroup isDigit (rest.takeWhile isGrouped)
    some (digits, rest.dropWhile isGrouped)
  | rest => some ([], rest)

def exponent? : List Char → Option Int
  | [] => some 0
  | c :: rest => do
    if c = 'e' ∨ c = 'E' then
      let (negative, rest) := readSign rest
      let n := natOfDigits (← ungroup isDigit rest)
      some (if negative then -n else n)
    else none

/-- A number that is too large is none. -/
def finite? (x : Float) : Option Number := if x.isInf then none else some (.float x)

def float? (cs : List Char) : Option Number :=
  let (negative, rest) := readSign cs
  if rest = "inf".toList then some (.float (Binary64.infinity negative))
  else if rest = "nan".toList then some (.nan negative)
  else do
    let digits ← whole? (rest.takeWhile isGrouped)
    let rest := rest.dropWhile isGrouped
    if rest.isEmpty then none
    else do
      let (fraction, rest) ← fraction? rest
      let exponent ← exponent? rest
      finite? (Decimal.toFloat negative
        ⟨natOfDigits (digits ++ fraction), exponent - fraction.length⟩)

end FractalBreeder.Toml
