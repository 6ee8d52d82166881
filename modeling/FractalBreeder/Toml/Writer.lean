import FractalBreeder.Settings.Value
import FractalBreeder.Toml.Text

/-!
Writing values. A string gets the first of these quotings that needs no escapes: basic, literal,
basic over several lines, literal over several lines; with none of them it is written with
escapes.
-/
namespace FractalBreeder.Toml

/-- The length of the longest run of a character. -/
def longestRun (c : Char) : List Char → Nat → Nat
  | [], _ => 0
  | d :: rest, run =>
    if d = c then max (run + 1) (longestRun c rest (run + 1)) else longestRun c rest 0

/-- A control that no string may hold as it is. -/
def isControl (c : Char) : Bool := (c.toNat < 32 && c ≠ '\t' && c ≠ '\n') || c.toNat = 127

inductive Quoting where
  | basic
  | literal
  | basicLines
  | literalLines
  deriving DecidableEq, Repr

def quoting (cs : List Char) : Quoting :=
  let breaks := cs.contains '\n'
  let controls := cs.any isControl
  let backslashes := cs.contains '\\'
  let doubles := longestRun '"' cs 0
  let singles := longestRun '\'' cs 0
  if !controls && !backslashes && doubles = 0 && !breaks then .basic
  else if !controls && singles = 0 && !breaks then .literal
  else if !controls && !backslashes && doubles ≤ 2 then .basicLines
  else if !controls && singles ≤ 2 then .literalLines
  else if breaks then .basicLines
  else .basic

/-- Four hexadecimal digits in upper case. -/
def hex4 (n : Nat) : List Char :=
  let digits := (Nat.toDigits 16 n).map Char.toUpper
  List.replicate (4 - digits.length) '0' ++ digits

/-- The escape of a character that is not a double quote, if it needs one. -/
def escape (multiline : Bool) (c : Char) : List Char :=
  if c = '\x08' then ['\\', 'b']
  else if c = '\t' then ['\\', 't']
  else if c = '\n' then (if multiline then ['\n'] else ['\\', 'n'])
  else if c = '\x0c' then ['\\', 'f']
  else if c = '\r' then ['\\', 'r']
  else if c = '\\' then ['\\', '\\']
  else if isControl c then '\\' :: 'u' :: hex4 c.toNat
  else [c]

/-- The content of basic quotes. Of a run of double quotes as many as allowed stand as they are,
then one is escaped and the count begins anew. -/
def escapeAll (multiline : Bool) : Nat → List Char → List Char
  | _, [] => []
  | run, c :: rest =>
    if c = '"' then
      if run < (if multiline then 2 else 0) then '"' :: escapeAll multiline (run + 1) rest
      else '\\' :: '"' :: escapeAll multiline 0 rest
    else escape multiline c ++ escapeAll multiline 0 rest

/-- Tripled quotes are followed by a line break where the content has one. -/
def opening (quotes content : List Char) : List Char :=
  if content.contains '\n' then quotes ++ ['\n'] else quotes

def writeText (cs : List Char) : List Char :=
  match quoting cs with
  | .basic => ['"'] ++ escapeAll false 0 cs ++ ['"']
  | .literal => ['\''] ++ cs ++ ['\'']
  | .basicLines => opening ['"', '"', '"'] cs ++ escapeAll true 0 cs ++ ['"', '"', '"']
  | .literalLines => opening ['\'', '\'', '\''] cs ++ cs ++ ['\'', '\'', '\'']

/-- A float always has a point or is spelled in letters. -/
def writeFloat (x : Float) : List Char :=
  if x.isNaN then "nan".toList
  else
    let shown := Shortest.text x
    if x.isInf || shown.contains '.' then shown else shown ++ ".0".toList

/-- Integers beyond 64 bits with a sign cannot be written. -/
def writeInt? (n : Int) : Option (List Char) :=
  (Decimal.signed64? n).map fun n => (toString n).toList

/-- Lists and tables have no place on the line of a key. -/
def writeScalar? : Value → Option (List Char)
  | .bool b => some (if b then "true".toList else "false".toList)
  | .int n => writeInt? n
  | .float x => some (writeFloat x.value)
  | .text s => some (writeText s.toList)
  | _ => none

/-- A line that gives a value to a key. -/
def writeLine? (key : String) (v : Value) : Option (List Char) :=
  (writeScalar? v).map fun written => key.toList ++ " = ".toList ++ written ++ ['\n']

def writeLines? : Fields → Option (List Char)
  | [] => some []
  | (key, v) :: rest => do
    let line ← writeLine? key v
    let lines ← writeLines? rest
    some (line ++ lines)

/-- A table under its header. -/
def writeTable? (header : String) (fields : Fields) : Option (List Char) :=
  (writeLines? fields).map fun lines => '[' :: header.toList ++ "]\n".toList ++ lines

end FractalBreeder.Toml
