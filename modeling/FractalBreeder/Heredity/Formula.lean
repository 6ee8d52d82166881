import FractalBreeder.Expr.Parser
import FractalBreeder.Expr.Preorder
import FractalBreeder.Expr.Printer

/-!
A formula is an expression together with a text for it: the text that was read, or the printed
text once the expression has changed.
-/
namespace FractalBreeder

structure Formula where
  text : String
  root : Expr
  deriving BEq, Inhabited

namespace Formula

def ofExpr (root : Expr) : Formula := ⟨root.text, root⟩

def parse (text : String) : Except ParseError Formula := do
  let root ← Expr.parse text
  pure ⟨text, root⟩

def isCanonical (f : Formula) : Bool := f.text == f.root.text

end Formula

end FractalBreeder
