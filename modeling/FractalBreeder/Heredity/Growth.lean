import FractalBreeder.Chance.Draws
import FractalBreeder.Heredity.Formula
import FractalBreeder.Settings.Genetic

/-!
Expressions and formulas made at random.
-/
namespace FractalBreeder

namespace Draws

/-- One of the given values, each equally likely. -/
def pick {α : Type} (first : α) (others : List α) : Draws α := do
  let i ← index (others.length + 1)
  pure ((first :: others).getD i first)

end Draws

/-- An operator whose operands do not exist yet. -/
inductive Operator where
  | unary (op : Unary)
  | binary (op : Binary)
  | ternary (op : Ternary)
  deriving DecidableEq, Repr

namespace Operator

def name : Operator → String
  | unary op => op.name
  | binary op => op.symbol.toString
  | ternary op => op.name

def arity : Operator → Nat
  | unary _ => 1
  | binary _ => 2
  | ternary _ => 3

/-- All operators: those of one operand first, those of three last. -/
def all : List Operator :=
  Unary.all.map unary ++ Binary.all.map binary ++ Ternary.all.map ternary

def random : Draws Operator := Draws.pick (unary .sin) (all.drop 1)

end Operator

namespace Growth

variable (settings : GeneticSettings)

def constant : Draws Float := Draws.between settings.constantMin settings.constantMax

/-- A variable or a constant, each of the four equally likely. -/
def leaf : Draws Expr := do
  let i ← Draws.index (Variable.all.length + 1)
  match Variable.all[i]? with
  | some v => pure (.var v)
  | none => do pure (.const (← constant settings))

/-- A tree that may branch on as many levels as given; where it may not, nothing is drawn to
decide about it. -/
def tree : Nat → Draws Expr
  | 0 => leaf settings
  | levels + 1 => do
    let chance ← Draws.unit
    if chance >= settings.operatorChance then leaf settings
    else
      match ← Operator.random with
      | .unary op => do
        let a ← tree levels
        pure (.unary op a)
      | .binary op => do
        let a ← tree levels
        let b ← tree levels
        pure (.binary op a b)
      | .ternary op => do
        let a ← tree levels
        let b ← tree levels
        let c ← tree levels
        pure (.ternary op a b c)

/-- A tree no deeper than the settings allow. -/
def node : Draws Expr := tree settings (settings.maxTreeDepth.toNat - 1)

/-- The tree `sin(scale*y)+weight*cos(scale*x)`. -/
def clifford (scale weight : Float) : Expr :=
  .binary .add
    (.unary .sin (.binary .mul (.const scale) (.var .y)))
    (.binary .mul (.const weight) (.unary .cos (.binary .mul (.const scale) (.var .x))))

/-- One map of an attractor: its scale is drawn before its weight. -/
def attractor : Draws Formula := do
  let scale ← constant settings
  let weight ← constant settings
  pure (.ofExpr (clifford scale weight))

/-- A weighted sum of x and y. -/
def plane : Draws Formula := do
  let a ← constant settings
  let b ← constant settings
  pure (.ofExpr (.binary .add (.binary .mul (.const a) (.var .x)) (.binary .mul (.const b) (.var .y))))

end Growth

end FractalBreeder
