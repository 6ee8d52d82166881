import FractalBreeder.Number.Decimal

/-!
Dates and times. They are read to be checked and are written in one form: a letter T between date
and time, and no zeros at the end of a fraction but a single one. Seconds may be left out.
-/
namespace FractalBreeder.Toml

open Decimal (isDigit natOfDigits)

/-- A number of exactly `count` digits. -/
def fixed? (count : Nat) (cs : List Char) : Option (Nat × List Char) :=
  let digits := cs.take count
  if digits.length = count && digits.all isDigit then some (natOfDigits digits, cs.drop count)
  else none

/-- The number with zeros in front, up to the given length. -/
def padded (length n : Nat) : List Char :=
  let digits := Nat.toDigits 10 n
  List.replicate (length - digits.length) '0' ++ digits

def isLeapYear (year : Nat) : Bool :=
  year % 4 == 0 && (year % 100 != 0 || year % 400 == 0)

def daysOfMonth (year month : Nat) : Nat :=
  if month = 2 then (if isLeapYear year then 29 else 28)
  else if month = 4 ∨ month = 6 ∨ month = 9 ∨ month = 11 then 30
  else 31

def expect? (c : Char) : List Char → Option (List Char)
  | d :: rest => if d = c then some rest else none
  | [] => none

def date? (cs : List Char) : Option (List Char × List Char) := do
  let (year, cs) ← fixed? 4 cs
  let cs ← expect? '-' cs
  let (month, cs) ← fixed? 2 cs
  let cs ← expect? '-' cs
  let (day, cs) ← fixed? 2 cs
  if 1 ≤ month && month ≤ 12 && 1 ≤ day && day ≤ daysOfMonth year month then
    some (padded 4 year ++ '-' :: padded 2 month ++ '-' :: padded 2 day, cs)
  else none

/-- Nine digits of a fraction at most count. -/
def fraction (digits : List Char) : List Char :=
  match ((digits.take 9).reverse.dropWhile (· = '0')).reverse with
  | [] => ['.', '0']
  | shown => '.' :: shown

/-- Seconds behind a colon, with a fraction or without; or nothing. -/
def seconds? : List Char → Option (List Char × List Char)
  | ':' :: cs => do
    let (second, cs) ← fixed? 2 cs
    if 60 < second then none
    else match cs with
      | '.' :: rest =>
        if (rest.takeWhile isDigit).isEmpty then none
        else some (':' :: padded 2 second ++ fraction (rest.takeWhile isDigit),
          rest.dropWhile isDigit)
      | cs => some (':' :: padded 2 second, cs)
  | cs => some ([], cs)

def time? (cs : List Char) : Option (List Char × List Char) := do
  let (hour, cs) ← fixed? 2 cs
  let cs ← expect? ':' cs
  let (minute, cs) ← fixed? 2 cs
  let (seconds, cs) ← seconds? cs
  if hour ≤ 23 && minute ≤ 59 then some (padded 2 hour ++ ':' :: padded 2 minute ++ seconds, cs)
  else none

/-- The distance from universal time; none is also a way to tell it. -/
def offset? : List Char → Option (List Char)
  | [] => some []
  | ['Z'] | ['z'] => some ['Z']
  | sign :: cs => do
    let (hour, cs) ← fixed? 2 cs
    let cs ← expect? ':' cs
    let (minute, cs) ← fixed? 2 cs
    if cs.isEmpty && (sign = '+' || sign = '-') && hour ≤ 23 && minute ≤ 59 then
      let sign := if hour = 0 && minute = 0 then '+' else sign
      some (sign :: padded 2 hour ++ ':' :: padded 2 minute)
    else none

/-- A date, a time, or both. -/
def moment? (cs : List Char) : Option (List Char) :=
  match date? cs with
  | some (date, []) => some date
  | some (date, separator :: cs) =>
    if separator = 'T' ∨ separator = 't' ∨ separator = ' ' then do
      let (time, cs) ← time? cs
      let offset ← offset? cs
      some (date ++ 'T' :: time ++ offset)
    else none
  | none => do
    let (time, cs) ← time? cs
    if cs.isEmpty then some time else none

end FractalBreeder.Toml
