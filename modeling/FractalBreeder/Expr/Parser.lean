import FractalBreeder.Expr.Postfix

/-!
Reading an expression.
-/
namespace FractalBreeder.Expr

def parse (text : String) : Except ParseError Expr := do
  let lexemes ← Token.lex 0 text.toList
  if lexemes.isEmpty then .error ⟨0, .emptyExpression⟩
  let items ← Postfix.reorder text.utf8ByteSize [] true lexemes
  match Postfix.tree? items with
  | some e => .ok e
  | none => .error ⟨0, .malformed⟩

end FractalBreeder.Expr
