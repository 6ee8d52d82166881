import FractalBreeder.Expr.Basic

/-!
The value of an expression at a point, with binary64 arithmetic throughout: a division by zero is
infinite or not a number, never an error.
-/
namespace FractalBreeder

/-- Values of the variables; a variable may be left open. -/
structure Point where
  x : Option Float := none
  y : Option Float := none
  z : Option Float := none

namespace Point

def get? (p : Point) : Variable → Option Float
  | .x => p.x
  | .y => p.y
  | .z => p.z

end Point

namespace Expr

/-- A variable that is left open counts as zero. -/
def eval (p : Point) : Expr → Float
  | const c => c.value
  | var v => (p.get? v).getD 0
  | unary op a => op.apply (a.eval p)
  | binary op a b => op.apply (a.eval p) (b.eval p)
  | ternary op a b c => op.apply (a.eval p) (b.eval p) (c.eval p)

end Expr

end FractalBreeder
