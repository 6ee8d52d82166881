import FractalBreeder.Number.Decimal
import FractalBreeder.Text.Split

/-!
Ways to values inside of others. A way is written as a key: names with points between them, each of
which may have places of a list in brackets behind it.
-/
namespace FractalBreeder

inductive Way.Step where
  | key (name : String)
  | index (i : Int)
  deriving DecidableEq, Repr

abbrev Way := List Way.Step

namespace Way

open Text (skipBlanks)

def isNameChar (c : Char) : Bool := c.isAlphanum || c = '_' || c = '-'

def name? (cs : List Char) : Option (Step × List Char) :=
  if (cs.takeWhile isNameChar).isEmpty then none
  else some (.key (String.ofList (cs.takeWhile isNameChar)), cs.dropWhile isNameChar)

/-- Digits, and a minus sign in front or none. -/
def integer? (cs : List Char) : Option (Int × List Char) :=
  let negative := cs.head? = some '-'
  let rest := if negative then cs.tail else cs
  let digits := rest.takeWhile Decimal.isDigit
  if digits.isEmpty then none
  else
    let n : Int := Decimal.natOfDigits digits
    (Decimal.signed64? (if negative then -n else n)).map (·, rest.dropWhile Decimal.isDigit)

/-- An index up to its closing bracket; blanks may stand around it. -/
def index? (cs : List Char) : Option (Step × List Char) := do
  let (i, cs) ← integer? (skipBlanks cs)
  match skipBlanks cs with
  | ']' :: rest => some (.index i, rest)
  | _ => none

/-- The steps behind the first name, at most as many as given. -/
def others? : Nat → List Char → Option Way
  | _, [] => some []
  | count + 1, '.' :: cs => do
    let (step, cs) ← name? cs
    (others? count cs).map (step :: ·)
  | count + 1, '[' :: cs => do
    let (step, cs) ← index? cs
    (others? count cs).map (step :: ·)
  | _, _ => none

def read? (key : String) : Option Way := do
  let (first, cs) ← name? key.toList
  (others? cs.length cs).map (first :: ·)

/-- The way that a key stands for; a key that is written in no such form stands for itself. -/
def ofKey (key : String) : Way := (read? key).getD [.key key]

end Way

end FractalBreeder
