import FractalBreeder.Expr.ParseError
import FractalBreeder.Number.Decimal

/-!
The tokens of an expression. Blanks separate tokens and are dropped; a number or a name is as
long as it can be.
-/
namespace FractalBreeder

inductive Token where
  | number (value : Float)
  | name (text : String)
  | operator (op : Binary)
  | opening
  | closing
  | comma
  deriving Repr

/-- A token and the place of its first byte. -/
structure Lexeme where
  position : Nat
  token : Token
  deriving Repr

namespace Token

open Decimal (isDigit)

/-- Space, tab, line feed, form feed and carriage return. -/
def isBlank (c : Char) : Bool :=
  c == ' ' || c == '\t' || c == '\n' || c == '\x0c' || c == '\r'

def isLetter (c : Char) : Bool := ('a' ≤ c && c ≤ 'z') || ('A' ≤ c && c ≤ 'Z')

def isWordChar (c : Char) : Bool := isLetter c || isDigit c

def isNumberChar (c : Char) : Bool := isDigit c || c == '.'

def signLength : List Char → Nat
  | '+' :: _ | '-' :: _ => 1
  | _ => 0

/-- The length of an exponent in front; without digits there is none. -/
def exponentLength : List Char → Nat
  | [] => 0
  | c :: rest =>
    if c == 'e' || c == 'E' then
      let digits := (rest.drop (signLength rest)).takeWhile isDigit
      if digits.isEmpty then 0 else 1 + signLength rest + digits.length
    else 0

/-- The length of the number in front: digits and points as far as they go, then an exponent. -/
def numberLength (cs : List Char) : Nat :=
  let run := (cs.takeWhile isNumberChar).length
  run + exponentLength (cs.drop run)

/-- The value of a written number. -/
def readNumber (position : Nat) (cs : List Char) : Except ParseError Float :=
  match Decimal.read? cs with
  | none => .error ⟨position, .invalidNumber (String.ofList cs)⟩
  | some d =>
    let value := d.toFloat false
    if value.isFinite then .ok value
    else .error ⟨position, .numberOutOfRange (String.ofList cs)⟩

/-- The tokens of one character. -/
def ofChar? : Char → Option Token
  | '(' => some opening
  | ')' => some closing
  | ',' => some comma
  | c => (Binary.ofSymbol? c).map operator

/-- The first byte of the encoding of a character, shown as a character of its own. -/
def leadingByte (c : Char) : Char :=
  let n := c.toNat
  if n < 0x80 then c
  else if n < 0x800 then Char.ofNat (0xC0 + n >>> 6)
  else if n < 0x10000 then Char.ofNat (0xE0 + n >>> 12)
  else Char.ofNat (0xF0 + n >>> 18)

/-- The tokens of a text whose first byte has the given place. Every character of a token takes
one byte. -/
def lex (position : Nat) : List Char → Except ParseError (List Lexeme)
  | [] => .ok []
  | c :: rest =>
    if isBlank c then lex (position + 1) rest
    else if isNumberChar c then do
      let length := numberLength (c :: rest)
      let value ← readNumber position ((c :: rest).take length)
      let lexemes ← lex (position + length) (rest.drop (length - 1))
      pure (⟨position, number value⟩ :: lexemes)
    else if isLetter c then do
      let word := (c :: rest).takeWhile isWordChar
      let lexemes ← lex (position + word.length) (rest.drop (word.length - 1))
      pure (⟨position, name (String.ofList word)⟩ :: lexemes)
    else
      match ofChar? c with
      | some token => do
        let lexemes ← lex (position + 1) rest
        pure (⟨position, token⟩ :: lexemes)
      | none => .error ⟨position, .unexpectedCharacter (leadingByte c)⟩
termination_by cs => cs.length
decreasing_by all_goals simp only [List.length_drop, List.length_cons]; omega

end Token

end FractalBreeder
