import FractalBreeder.Expr.Basic

/-!
Nodes of an expression by their place in preorder: the root has place 0, then come the nodes of
the operands from left to right.
-/
namespace FractalBreeder.Expr

/-- The content of one node without its operands. -/
inductive Label where
  | const (value : Number)
  | var (v : Variable)
  | unary (op : Unary)
  | binary (op : Binary)
  | ternary (op : Ternary)

def label : Expr → Label
  | const value => .const value
  | var v => .var v
  | unary op _ => .unary op
  | binary op _ _ => .binary op
  | ternary op _ _ _ => .ternary op

/-- A constant shows as a number sign, whatever its value. -/
def Label.text : Label → String
  | .const _ => "#"
  | .var v => v.name
  | .unary op => op.name
  | .binary op => op.symbol.toString
  | .ternary op => op.name

/-- Every subtree, in preorder of the roots. -/
def subtrees : Expr → List Expr
  | const value => [const value]
  | var v => [var v]
  | unary op a => unary op a :: a.subtrees
  | binary op a b => binary op a b :: (a.subtrees ++ b.subtrees)
  | ternary op a b c => ternary op a b c :: (a.subtrees ++ b.subtrees ++ c.subtrees)

/-- The labels of all nodes, in preorder. -/
def labels : Expr → List Label
  | const value => [.const value]
  | var v => [.var v]
  | unary op a => .unary op :: a.labels
  | binary op a b => .binary op :: (a.labels ++ b.labels)
  | ternary op a b c => .ternary op :: (a.labels ++ b.labels ++ c.labels)

/-- Reads one tree from the front of a list of labels; `fuel` bounds its size. -/
def takeTree? : Nat → List Label → Option (Expr × List Label)
  | 0, _ | _, [] => none
  | fuel + 1, label :: rest =>
    match label with
    | .const value => some (const value, rest)
    | .var v => some (var v, rest)
    | .unary op => do
      let (a, rest) ← takeTree? fuel rest
      some (unary op a, rest)
    | .binary op => do
      let (a, rest) ← takeTree? fuel rest
      let (b, rest) ← takeTree? fuel rest
      some (binary op a b, rest)
    | .ternary op => do
      let (a, rest) ← takeTree? fuel rest
      let (b, rest) ← takeTree? fuel rest
      let (c, rest) ← takeTree? fuel rest
      some (ternary op a b c, rest)

/-- The tree with the given labels in preorder. -/
def ofLabels? (labels : List Label) : Option Expr :=
  match takeTree? labels.length labels with
  | some (e, []) => some e
  | _ => none

/-- Looks for the node `i` places on in preorder. The search ends with the subtree there, or goes on
behind the tree with the places that remain. -/
def seek : Expr → Nat → Except Expr Nat
  | e, 0 => throw e
  | const _, i + 1 | var _, i + 1 => pure i
  | unary _ a, i + 1 => a.seek i
  | binary _ a b, i + 1 => a.seek i >>= b.seek
  | ternary _ a b c, i + 1 => a.seek i >>= b.seek >>= c.seek

/-- A subtree where it stands: what is there, and the whole tree with something else in its place. -/
structure Focus where
  node : Expr
  put : Expr → Expr

/-- The same place seen from a larger tree. -/
def Focus.inside (frame : Expr → Expr) (focus : Focus) : Focus :=
  ⟨focus.node, fun r => frame (focus.put r)⟩

/-- The same search, for a subtree that is to be changed. -/
def aim : Expr → Nat → Except Focus Nat
  | e, 0 => throw ⟨e, id⟩
  | const _, i + 1 | var _, i + 1 => pure i
  | unary op a, i + 1 => (a.aim i).mapError (.inside (unary op))
  | binary op a b, i + 1 => do
    let i ← (a.aim i).mapError (.inside (binary op · b))
    (b.aim i).mapError (.inside (binary op a))
  | ternary op a b c, i + 1 => do
    let i ← (a.aim i).mapError (.inside (ternary op · b c))
    let i ← (b.aim i).mapError (.inside (ternary op a · c))
    (c.aim i).mapError (.inside (ternary op a b))

/-- What a search ended with. -/
def found? {α : Type} : Except α Nat → Option α
  | .error found => some found
  | .ok _ => none

/-- The subtree whose root has place `i`. -/
def subtree? (e : Expr) (i : Nat) : Option Expr := found? (e.seek i)

def focus? (e : Expr) (i : Nat) : Option Focus := found? (e.aim i)

/-- The tree with `r` in the place of the subtree at `i`; nothing where there is no such node. -/
def replace? (e : Expr) (i : Nat) (r : Expr) : Option Expr := (e.focus? i).map (·.put r)

/-- The places of the leaves, while the nodes are counted in preorder. -/
def countLeaves : Expr → StateM Nat (List Nat)
  | const _ | var _ => do
    let place ← getModify (· + 1)
    pure [place]
  | unary _ a => do
    modify (· + 1)
    a.countLeaves
  | binary _ a b => do
    modify (· + 1)
    let left ← a.countLeaves
    let right ← b.countLeaves
    pure (left ++ right)
  | ternary _ a b c => do
    modify (· + 1)
    let left ← a.countLeaves
    let middle ← b.countLeaves
    let right ← c.countLeaves
    pure (left ++ middle ++ right)

def leaves (e : Expr) : List Nat := (e.countLeaves.run 0).1

/-- The values of the constants, in preorder. -/
def constants : Expr → List Number
  | const value => [value]
  | var _ => []
  | unary _ a => a.constants
  | binary _ a b => a.constants ++ b.constants
  | ternary _ a b c => a.constants ++ b.constants ++ c.constants

/-- A node over the same operands as `e`. -/
structure Twin (e : Expr) where
  node : Expr
  children_node : node.children = e.children := by rfl

/-- The node over other operands; it stays as it is where their number is not its own. -/
def withChildren : Expr → List Expr → Expr
  | unary op _, [a] => unary op a
  | binary op _ _, [a, b] => binary op a b
  | ternary op _ _ _, [a, b, c] => ternary op a b c
  | e, _ => e

section

variable {m : Type → Type} [Monad m]

/-- Visits every node: a node before its operands, and these from left to right. What `f` makes of a
node stands over the same operands, and these are visited next. -/
def traverse (f : (e : Expr) → m (Twin e)) : Expr → m Expr
  | const value => Twin.node <$> f (const value)
  | var v => Twin.node <$> f (var v)
  | unary op a => do
    let twin ← f (unary op a)
    let a ← a.traverse f
    pure (twin.node.withChildren [a])
  | binary op a b => do
    let twin ← f (binary op a b)
    let a ← a.traverse f
    let b ← b.traverse f
    pure (twin.node.withChildren [a, b])
  | ternary op a b c => do
    let twin ← f (ternary op a b c)
    let a ← a.traverse f
    let b ← b.traverse f
    let c ← c.traverse f
    pure (twin.node.withChildren [a, b, c])

/-- A visit that leaves all nodes but the constants as they are. -/
def onConstants (f : Number → m Number) : (e : Expr) → m (Twin e)
  | const value => (fun value => { node := const value }) <$> f value
  | e => pure { node := e }

/-- Passes every constant through `f`, in preorder; the rest of the tree stays. -/
def traverseConstants (f : Number → m Number) (e : Expr) : m Expr := e.traverse (onConstants f)

variable [LawfulMonad m] (f : Number → m Number)

@[simp]
theorem traverseConstants_const (value : Number) :
    (const value).traverseConstants f = const <$> f value := by
  simp [traverseConstants, traverse, onConstants]

@[simp]
theorem traverseConstants_var (v : Variable) :
    (var v).traverseConstants f = pure (var v) := by
  simp [traverseConstants, traverse, onConstants]

@[simp]
theorem traverseConstants_unary (op : Unary) (a : Expr) :
    (unary op a).traverseConstants f = unary op <$> a.traverseConstants f := by
  simp [traverseConstants, traverse, onConstants, withChildren]

@[simp]
theorem traverseConstants_binary (op : Binary) (a b : Expr) :
    (binary op a b).traverseConstants f = a.traverseConstants f >>= fun a =>
      b.traverseConstants f >>= fun b => pure (binary op a b) := by
  simp [traverseConstants, traverse, onConstants, withChildren]

@[simp]
theorem traverseConstants_ternary (op : Ternary) (a b c : Expr) :
    (ternary op a b c).traverseConstants f = a.traverseConstants f >>= fun a =>
      b.traverseConstants f >>= fun b => c.traverseConstants f >>= fun c =>
        pure (ternary op a b c) := by
  simp [traverseConstants, traverse, onConstants, withChildren]

end

/-- Numbers the constants in preorder: `start`, `start + 1`, and so on. -/
def numberConstants (start : Number) (e : Expr) : Expr :=
  (e.traverseConstants (m := StateM Number) (fun _ => do
    let next ← get
    set (next.add (.float 1))
    pure next)).run start |>.1

theorem length_labels (e : Expr) : e.labels.length = e.size := by
  induction e with
  | const | var => rfl
  | unary _ a iha => simp [labels, size, iha]; omega
  | binary _ a b iha ihb => simp [labels, size, iha, ihb]; omega
  | ternary _ a b c iha ihb ihc => simp [labels, size, iha, ihb, ihc]; omega

theorem length_subtrees (e : Expr) : e.subtrees.length = e.size := by
  induction e with
  | const | var => rfl
  | unary _ a iha => simp [subtrees, size, iha]; omega
  | binary _ a b iha ihb => simp [subtrees, size, iha, ihb]; omega
  | ternary _ a b c iha ihb ihc => simp [subtrees, size, iha, ihb, ihc]; omega

end FractalBreeder.Expr
