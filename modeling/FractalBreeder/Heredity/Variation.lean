import FractalBreeder.Heredity.Growth

/-!
The genetic operators on formulas. Crossing exchanges two subtrees, mutation moves constants, and
introduction grows a new subtree in the place of a leaf.
-/
namespace FractalBreeder

namespace Expr

/-- The subtree at `i` and the one in hand trade places; where there is no such node, nothing moves. -/
def trade (e : Expr) (i : Nat) (hand : Expr) : Expr × Expr :=
  match e.focus? i with
  | some focus => (focus.put hand, focus.node)
  | none => (e, hand)

/-- Exchanges the subtree at `p` with the one at `q` of the other tree: that one is lifted out of its
tree, while `blank` stands in for it, and what it meets in the first tree is put back for `blank`. -/
def exchangeThrough (blank a b : Expr) (p q : Nat) : (Expr × Expr) × Expr :=
  let (b, hand) := b.trade q blank
  let (a, hand) := a.trade p hand
  let (b, hand) := b.trade q hand
  ((a, b), hand)

def exchange (a b : Expr) (p q : Nat) : Expr × Expr :=
  (exchangeThrough (.const (.float 0)) a b p q).1

end Expr

namespace Formula

/-- Two subtrees below the roots trade places. A tree of one node has none, and then both formulas
stay as they are. -/
def cross (a b : Formula) : Draws (Formula × Formula) :=
  if a.root.size < 2 || b.root.size < 2 then pure (a, b)
  else do
    let p ← Draws.index (a.root.size - 1)
    let q ← Draws.index (b.root.size - 1)
    let (first, second) := a.root.exchange b.root (p + 1) (q + 1)
    pure (ofExpr first, ofExpr second)

/-- A constant that moves is shifted and folded back. -/
def mutateConstant (settings : GeneticSettings) (value : Number) : Draws Number := do
  let chance ← Draws.unit
  if chance < settings.mutateChance then do
    let delta ← Draws.between (-settings.mutateRange) settings.mutateRange
    pure ((value.add delta).remainder settings.mutateFold)
  else pure value

def mutate (settings : GeneticSettings) (f : Formula) : Draws Formula :=
  ofExpr <$> f.root.traverseConstants (mutateConstant settings)

/-- The leaf is chosen before the subtree grows. -/
def introduce (settings : GeneticSettings) (f : Formula) : Draws Formula := do
  let i ← Draws.index f.root.leaves.length
  let grown ← Growth.node settings
  pure (ofExpr ((f.root.replace? (f.root.leaves.getD i 0) grown).getD f.root))

end Formula

end FractalBreeder
