import FractalBreeder.Expr.Token

/-!
The grammar of expressions, over tokens. A derivation carries the tree that the tokens stand for:
sums and products group to the left, powers to the right, and a minus sign in front of a factor
binds more strongly than a product and less strongly than a power.
-/
namespace FractalBreeder.Grammar

inductive Category where
  | sum
  | product
  | factor
  | power
  | atom
  deriving DecidableEq, Repr

inductive Derives : Category → List Token → Expr → Prop where
  | sum_product {ts e} : Derives .product ts e → Derives .sum ts e
  | sum_step {ts us a b} {op : Binary} : op = .add ∨ op = .sub →
      Derives .sum ts a → Derives .product us b →
      Derives .sum (ts ++ .operator op :: us) (.binary op a b)
  | product_factor {ts e} : Derives .factor ts e → Derives .product ts e
  | product_step {ts us a b} {op : Binary} : op = .mul ∨ op = .div →
      Derives .product ts a → Derives .factor us b →
      Derives .product (ts ++ .operator op :: us) (.binary op a b)
  | factor_power {ts e} : Derives .power ts e → Derives .factor ts e
  | factor_plus {ts e} : Derives .factor ts e → Derives .factor (.operator .add :: ts) e
  | factor_minus_const {ts value} : Derives .factor ts (.const value) →
      Derives .factor (.operator .sub :: ts) (.const value.negated)
  | factor_minus {ts e} : Derives .factor ts e → e.isConst = false →
      Derives .factor (.operator .sub :: ts) (.binary .mul (.const (.float (-1))) e)
  | power_atom {ts e} : Derives .atom ts e → Derives .power ts e
  | power_step {ts us a b} : Derives .atom ts a → Derives .factor us b →
      Derives .power (ts ++ .operator .pow :: us) (.binary .pow a b)
  | number (x : Float) : Derives .atom [.number x] (.const (.float x))
  | var (v : Variable) : Derives .atom [.name v.name] (.var v)
  | group {ts e} : Derives .sum ts e → Derives .atom (.opening :: ts ++ [.closing]) e
  | unary (op : Unary) {ts a} : Derives .sum ts a →
      Derives .atom (.name op.name :: .opening :: ts ++ [.closing]) (.unary op a)
  | ternary (op : Ternary) {ts us vs a b c} :
      Derives .sum ts a → Derives .sum us b → Derives .sum vs c →
      Derives .atom
        (.name op.name :: .opening :: ts ++ .comma :: us ++ .comma :: vs ++ [.closing])
        (.ternary op a b c)

theorem derives_nonempty {c : Category} {ts : List Token} {e : Expr} (derived : Derives c ts e) :
    ts ≠ [] := by
  induction derived with
  | sum_product _ ih => exact ih
  | product_factor _ ih => exact ih
  | factor_power _ ih => exact ih
  | power_atom _ ih => exact ih
  | _ => simp

end FractalBreeder.Grammar
