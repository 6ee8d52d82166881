import FractalBreeder.Expr.Basic

/-!
The text of an expression. An operand that is itself an operation, or a constant with a minus
sign, stands in parentheses, so that the text reads back to the same tree.
-/
namespace FractalBreeder.Expr

def parenthesized (cs : List Char) : List Char := '(' :: cs ++ [')']

/-- The characters of the text; `top` where nothing binds the expression from outside. -/
def print (top : Bool) : Expr → List Char
  | const value =>
    if value.isNegative && !top then parenthesized value.text else value.text
  | var v => v.name.toList
  | unary op a => op.name.toList ++ parenthesized (a.print true)
  | binary op a b =>
    let inner := a.print false ++ op.symbol :: b.print false
    if top then inner else parenthesized inner
  | ternary op a b c =>
    op.name.toList ++
      parenthesized (a.print true ++ ',' :: ' ' :: b.print true ++ ',' :: ' ' :: c.print true)

def text (e : Expr) : String := String.ofList (e.print true)

end FractalBreeder.Expr
