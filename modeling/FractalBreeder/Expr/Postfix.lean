import FractalBreeder.Expr.Token

/-!
An expression in postfix order: operands come before their operator. Tokens are reordered with
a stack of operators that wait for their right operand, and a postfix sequence is folded into a
tree with a stack of operands.
-/
namespace FractalBreeder

inductive Postfix where
  | number (value : Float)
  | var (v : Variable)
  | negate
  | binary (op : Binary)
  | call (f : Function)
  deriving Repr

namespace Postfix

/-- What waits on the operator stack. A call remembers the place of its opening parenthesis and
the number of commas so far. -/
inductive Pending where
  | binary (op : Binary)
  | negate
  | group
  | call (f : Function) (position : Nat) (commas : Nat)
  deriving Repr

/-- Binding strength of a minus sign in front of an operand: above a product, below a power. -/
def negatePrecedence : Nat := 3

/-- What a waiting operator becomes when `op` follows its right operand: it is output if it binds
more strongly, or as strongly and `op` groups to the left. -/
def yieldsTo (op : Binary) : Pending → Option Postfix
  | .binary top =>
    if op.precedence < top.precedence ||
        (top.precedence == op.precedence && !op.isRightAssociative) then some (.binary top)
    else none
  | .negate =>
    if op.precedence < negatePrecedence ||
        (negatePrecedence == op.precedence && !op.isRightAssociative) then some .negate
    else none
  | .group | .call .. => none

/-- The operators output before `op` is stacked, and those that go on waiting. -/
def release (op : Binary) : List Pending → List Postfix × List Pending
  | [] => ([], [])
  | top :: rest =>
    match yieldsTo op top with
    | some item => let (items, left) := release op rest; (item :: items, left)
    | none => ([], top :: rest)

/-- The operators output up to the innermost open parenthesis, and what waits from there on. -/
def drain : List Pending → List Postfix × List Pending
  | .binary op :: rest => let (items, left) := drain rest; (.binary op :: items, left)
  | .negate :: rest => let (items, left) := drain rest; (.negate :: items, left)
  | pending => ([], pending)

/-- What is output at the end of a text of the given length. -/
def finish (length : Nat) : List Pending → Except ParseError (List Postfix)
  | [] => .ok []
  | .binary op :: rest => (.binary op :: ·) <$> finish length rest
  | .negate :: rest => (.negate :: ·) <$> finish length rest
  | .group :: _ | .call .. :: _ => .error ⟨length, .unbalancedOpening⟩

/-- The postfix sequence of the remaining tokens; `awaiting` says whether an operand must come
next. -/
def reorder (length : Nat) (pending : List Pending) (awaiting : Bool) :
    List Lexeme → Except ParseError (List Postfix)
  | [] => if awaiting then .error ⟨length, .unexpectedEnd⟩ else finish length pending
  | ⟨position, token⟩ :: rest =>
    match token with
    | .number value =>
      if awaiting then (.number value :: ·) <$> reorder length pending false rest
      else .error ⟨position, .expectedOperator⟩
    | .name name =>
      if !awaiting then .error ⟨position, .expectedOperator⟩
      else
        match Variable.ofName? name with
        | some v => (.var v :: ·) <$> reorder length pending false rest
        | none =>
          match Function.ofName? name with
          | none => .error ⟨position, .unknownName name⟩
          | some f =>
            match rest with
            | ⟨opening, .opening⟩ :: rest => reorder length (.call f opening 0 :: pending) true rest
            | _ => .error ⟨position, .expectedOpening f⟩
    | .opening =>
      if awaiting then reorder length (.group :: pending) true rest
      else .error ⟨position, .expectedOperator⟩
    | .operator op =>
      if awaiting then
        match op with
        | .sub => reorder length (.negate :: pending) true rest
        | .add => reorder length pending true rest
        | _ => .error ⟨position, .missingLeftOperand op⟩
      else
        let (items, left) := release op pending
        (items ++ ·) <$> reorder length (.binary op :: left) true rest
    | .comma =>
      if awaiting then .error ⟨position, .emptyArgument⟩
      else
        match drain pending with
        | (items, .call f opening commas :: left) =>
          (items ++ ·) <$> reorder length (.call f opening (commas + 1) :: left) true rest
        | _ => .error ⟨position, .strayComma⟩
    | .closing =>
      if awaiting then .error ⟨position, .missingOperandBeforeClosing⟩
      else
        match drain pending with
        | (items, .group :: left) => (items ++ ·) <$> reorder length left false rest
        | (items, .call f opening commas :: left) =>
          if commas + 1 = f.arity then
            (fun more => items ++ .call f :: more) <$> reorder length left false rest
          else .error ⟨opening, .wrongArgumentCount f (commas + 1)⟩
        | _ => .error ⟨position, .unbalancedClosing⟩

/-- A minus sign in front of a constant belongs to the constant. -/
def negated : Expr → Expr
  | .const value => .const value.negated
  | e => .binary .mul (.const (.float (-1))) e

/-- One step on the stack of operands. -/
def push? : Postfix → List Expr → Option (List Expr)
  | number value, stack => some (.const value :: stack)
  | var v, stack => some (.var v :: stack)
  | negate, a :: stack => some (negated a :: stack)
  | binary op, b :: a :: stack => some (.binary op a b :: stack)
  | call (.unary op), a :: stack => some (.unary op a :: stack)
  | call (.ternary op), c :: b :: a :: stack => some (.ternary op a b c :: stack)
  | _, _ => none

/-- The tree of a sequence; nothing where an operand is missing or left over. -/
def tree? (items : List Postfix) : Option Expr :=
  match items.foldlM (fun stack item => item.push? stack) [] with
  | some [e] => some e
  | _ => none

end Postfix

end FractalBreeder
