import FractalBreeder.Number.Basic

/-!
Expression trees over three variables. The operators carry their arity in the shape of the tree, so
every tree is well formed; this module has their names, their binding strength and their meaning.
-/
namespace FractalBreeder

inductive Variable where
  | x | y | z
  deriving DecidableEq, Repr

namespace Variable

def all : List Variable := [x, y, z]

def name : Variable → String
  | x => "x"
  | y => "y"
  | z => "z"

def ofName? (name : String) : Option Variable := all.find? (·.name == name)

end Variable

inductive Unary where
  | sin | cos | tan | abs
  deriving DecidableEq, Repr

namespace Unary

def all : List Unary := [sin, cos, tan, abs]

def name : Unary → String
  | sin => "sin"
  | cos => "cos"
  | tan => "tan"
  | abs => "abs"

def ofName? (name : String) : Option Unary := all.find? (·.name == name)

def apply : Unary → Float → Float
  | sin, a => a.sin
  | cos, a => a.cos
  | tan, a => a.tan
  | abs, a => a.abs

end Unary

inductive Binary where
  | add | sub | mul | div | pow
  deriving DecidableEq, Repr

namespace Binary

def all : List Binary := [add, sub, mul, div, pow]

def symbol : Binary → Char
  | add => '+'
  | sub => '-'
  | mul => '*'
  | div => '/'
  | pow => '^'

def ofSymbol? (symbol : Char) : Option Binary := all.find? (·.symbol == symbol)

/-- Binding strength; strength 3 is that of a minus sign in front of an operand. -/
def precedence : Binary → Nat
  | add | sub => 1
  | mul | div => 2
  | pow => 4

def isRightAssociative : Binary → Bool
  | pow => true
  | _ => false

def apply : Binary → Float → Float → Float
  | add, a, b => a + b
  | sub, a, b => a - b
  | mul, a, b => a * b
  | div, a, b => a / b
  | pow, a, b => a.pow b

end Binary

/-- The one operator of three operands chooses by the sign of the first. -/
inductive Ternary where
  | choose
  deriving DecidableEq, Repr

namespace Ternary

def all : List Ternary := [choose]

def name : Ternary → String
  | choose => "if"

def ofName? (name : String) : Option Ternary := all.find? (·.name == name)

/-- The second operand where the first is positive, else the third. -/
def apply : Ternary → Float → Float → Float → Float
  | choose, condition, a, b => if condition > 0 then a else b

end Ternary

inductive Expr where
  | const (value : Number)
  | var (v : Variable)
  | unary (op : Unary) (a : Expr)
  | binary (op : Binary) (a b : Expr)
  | ternary (op : Ternary) (a b c : Expr)
  deriving BEq, Repr, Inhabited

namespace Expr

def children : Expr → List Expr
  | const _ | var _ => []
  | unary _ a => [a]
  | binary _ a b => [a, b]
  | ternary _ a b c => [a, b, c]

def arity (e : Expr) : Nat := e.children.length

def isLeaf : Expr → Bool
  | const _ | var _ => true
  | _ => false

def isConst : Expr → Bool
  | const _ => true
  | _ => false

def size : Expr → Nat
  | const _ | var _ => 1
  | unary _ a => 1 + a.size
  | binary _ a b => 1 + a.size + b.size
  | ternary _ a b c => 1 + a.size + b.size + c.size

def depth : Expr → Nat
  | const _ | var _ => 1
  | unary _ a => 1 + a.depth
  | binary _ a b => 1 + max a.depth b.depth
  | ternary _ a b c => 1 + max a.depth (max b.depth c.depth)

def leafCount : Expr → Nat
  | const _ | var _ => 1
  | unary _ a => a.leafCount
  | binary _ a b => a.leafCount + b.leafCount
  | ternary _ a b c => a.leafCount + b.leafCount + c.leafCount

end Expr

end FractalBreeder
