import FractalBreeder.Expr.Basic

/-!
What can be wrong with the text of an expression, and where.
-/
namespace FractalBreeder

/-- The operators that are written like a call. -/
inductive Function where
  | unary (op : Unary)
  | ternary (op : Ternary)
  deriving DecidableEq, Repr

namespace Function

def name : Function → String
  | unary op => op.name
  | ternary op => op.name

def arity : Function → Nat
  | unary _ => 1
  | ternary _ => 3

def ofName? (name : String) : Option Function :=
  (Unary.ofName? name).map unary <|> (Ternary.ofName? name).map ternary

end Function

inductive ParseFault where
  | invalidNumber (text : String)
  | numberOutOfRange (text : String)
  | unexpectedCharacter (c : Char)
  | emptyExpression
  | expectedOperator
  | unknownName (name : String)
  | expectedOpening (f : Function)
  | missingLeftOperand (op : Binary)
  | emptyArgument
  | strayComma
  | missingOperandBeforeClosing
  | wrongArgumentCount (f : Function) (given : Nat)
  | unbalancedClosing
  | unexpectedEnd
  | unbalancedOpening
  | malformed
  deriving DecidableEq, Repr

namespace ParseFault

def text : ParseFault → String
  | invalidNumber text => s!"invalid number '{text}'"
  | numberOutOfRange text => s!"number out of range '{text}'"
  | unexpectedCharacter c => s!"unexpected character '{c}'"
  | emptyExpression => "empty expression"
  | expectedOperator => "expected an operator"
  | unknownName name => s!"unknown identifier '{name}'"
  | expectedOpening f => s!"expected '(' after '{f.name}'"
  | missingLeftOperand op => s!"operator '{op.symbol}' is missing its left operand"
  | emptyArgument => "empty argument"
  | strayComma => "',' outside of a function call"
  | missingOperandBeforeClosing => "expected an operand before ')'"
  | wrongArgumentCount f given => s!"'{f.name}' takes {f.arity} argument(s), got {given}"
  | unbalancedClosing => "unbalanced ')'"
  | unexpectedEnd => "unexpected end of expression"
  | unbalancedOpening => "unbalanced '('"
  | malformed => "malformed expression"

end ParseFault

/-- A fault at a place of the text, counted in bytes. -/
structure ParseError where
  position : Nat
  fault : ParseFault
  deriving DecidableEq, Repr

end FractalBreeder
