import FractalBreeder.Number.Decimal

/-!
Strings of the file format, read from behind the opening quotes: the content and what comes after
the closing quotes. Basic strings have escapes and literal ones have none; either may go over
several lines when its quotes are tripled.
-/
namespace FractalBreeder.Toml

/-- Characters that a string may hold as they are: the tab, and all that are no controls. -/
def isPlain (c : Char) : Bool := c = '\t' || (32 ≤ c.toNat && c.toNat ≠ 127)

def hexDigit? (c : Char) : Option Nat :=
  if '0' ≤ c && c ≤ '9' then some (c.toNat - '0'.toNat)
  else if 'a' ≤ c && c ≤ 'f' then some (c.toNat - 'a'.toNat + 10)
  else if 'A' ≤ c && c ≤ 'F' then some (c.toNat - 'A'.toNat + 10)
  else none

/-- The character of a code point in hexadecimal digits. -/
def codePoint? (digits : List Char) : Option Char := do
  let n ← digits.foldlM (fun n c => (hexDigit? c).map (16 * n + ·)) 0
  if h : n.isValidChar then some (Char.ofNatAux n h) else none

/-- The character that is meant by the one after a backslash. -/
def escaped? (c : Char) : Option Char :=
  if c = 'b' then some '\x08'
  else if c = 't' then some '\t'
  else if c = 'n' then some '\n'
  else if c = 'f' then some '\x0c'
  else if c = 'e' then some '\x1b'
  else if c = 'r' then some '\r'
  else if c = '"' then some '"'
  else if c = '\\' then some '\\'
  else none

def push (c : Char) : Option (List Char × List Char) → Option (List Char × List Char)
  | some (cs, rest) => some (c :: cs, rest)
  | none => none

def basic? : List Char → Option (List Char × List Char)
  | '"' :: rest => some ([], rest)
  | '\\' :: 'x' :: a :: b :: rest => do push (← codePoint? [a, b]) (basic? rest)
  | '\\' :: 'u' :: a :: b :: c :: d :: rest => do
    push (← codePoint? [a, b, c, d]) (basic? rest)
  | '\\' :: 'U' :: a :: b :: c :: d :: e :: f :: g :: h :: rest => do
    push (← codePoint? [a, b, c, d, e, f, g, h]) (basic? rest)
  | '\\' :: c :: rest => do push (← escaped? c) (basic? rest)
  | c :: rest => if isPlain c then push c (basic? rest) else none
  | [] => none

def literal? : List Char → Option (List Char × List Char)
  | '\'' :: rest => some ([], rest)
  | c :: rest => if isPlain c then push c (literal? rest) else none
  | [] => none

/-- How many blanks and line breaks come first. A carriage return is part of a line break, or no
blank at all. -/
def blanksAhead : List Char → Nat
  | '\r' :: '\n' :: rest => blanksAhead rest + 2
  | c :: rest => if c = ' ' || c = '\t' || c = '\n' then blanksAhead rest + 1 else 0
  | [] => 0

/-- The number of blanks and line breaks that a backslash at the end of a line skips. -/
def skipped (cs : List Char) : Option Nat :=
  let count := blanksAhead cs
  if (cs.take count).contains '\n' then some count else none

/-- Skips the given number of characters first. One or two quotes right before the closing ones
belong to the content, and line breaks stay as they are. -/
def basicLines? : Nat → List Char → Option (List Char × List Char)
  | skip + 1, _ :: rest => basicLines? skip rest
  | _, [] => none
  | 0, '"' :: '"' :: '"' :: '"' :: '"' :: rest => some (['"', '"'], rest)
  | 0, '"' :: '"' :: '"' :: '"' :: rest => some (['"'], rest)
  | 0, '"' :: '"' :: '"' :: rest => some ([], rest)
  | 0, '\\' :: 'x' :: a :: b :: rest => do push (← codePoint? [a, b]) (basicLines? 0 rest)
  | 0, '\\' :: 'u' :: a :: b :: c :: d :: rest => do
    push (← codePoint? [a, b, c, d]) (basicLines? 0 rest)
  | 0, '\\' :: 'U' :: a :: b :: c :: d :: e :: f :: g :: h :: rest => do
    push (← codePoint? [a, b, c, d, e, f, g, h]) (basicLines? 0 rest)
  | 0, '\\' :: c :: rest =>
    match skipped (c :: rest) with
    | some (skip + 1) => basicLines? skip rest
    | _ => do push (← escaped? c) (basicLines? 0 rest)
  | 0, '\r' :: '\n' :: rest => push '\r' (push '\n' (basicLines? 0 rest))
  | 0, c :: rest => if isPlain c || c = '\n' then push c (basicLines? 0 rest) else none

def literalLines? : List Char → Option (List Char × List Char)
  | '\'' :: '\'' :: '\'' :: '\'' :: '\'' :: rest => some (['\'', '\''], rest)
  | '\'' :: '\'' :: '\'' :: '\'' :: rest => some (['\''], rest)
  | '\'' :: '\'' :: '\'' :: rest => some ([], rest)
  | '\r' :: '\n' :: rest => push '\r' (push '\n' (literalLines? rest))
  | c :: rest => if isPlain c || c = '\n' then push c (literalLines? rest) else none
  | [] => none

/-- A line break right behind tripled quotes does not count. -/
def dropBreak : List Char → List Char
  | '\n' :: rest => rest
  | '\r' :: '\n' :: rest => rest
  | rest => rest

/-- Any string, from its opening quotes on. -/
def text? : List Char → Option (List Char × List Char)
  | '"' :: '"' :: '"' :: rest => basicLines? 0 (dropBreak rest)
  | '\'' :: '\'' :: '\'' :: rest => literalLines? (dropBreak rest)
  | '"' :: rest => basic? rest
  | '\'' :: rest => literal? rest
  | _ => none

end FractalBreeder.Toml
