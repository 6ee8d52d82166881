import FractalBreeder.Proofs.Expr.Acceptance
import FractalBreeder.Proofs.Expr.Spelling
import FractalBreeder.Proofs.Number.ShortestText

/-!
The text of an expression with finite constants reads back to the same expression, and every
expression that is read has finite constants.
-/
namespace FractalBreeder

namespace Grammar

theorem derives_of_atom {ts : List Token} {e : Expr} (c : Category) (derived : Derives .atom ts e) :
    Derives c ts e := by
  have power := Derives.power_atom derived
  have factor := Derives.factor_power power
  have product := Derives.product_factor factor
  cases c with
  | sum => exact .sum_product product
  | product => exact product
  | factor => exact factor
  | power => exact power
  | atom => exact derived

theorem derives_binary (op : Binary) {ts us : List Token} {a b : Expr} (left : Derives .atom ts a)
    (right : Derives .atom us b) : Derives .sum (ts ++ .operator op :: us) (.binary op a b) := by
  cases op with
  | add => exact .sum_step (.inl rfl) (derives_of_atom _ left) (derives_of_atom _ right)
  | sub => exact .sum_step (.inr rfl) (derives_of_atom _ left) (derives_of_atom _ right)
  | mul =>
      exact .sum_product
        (.product_step (.inl rfl) (derives_of_atom _ left) (derives_of_atom _ right))
  | div =>
      exact .sum_product
        (.product_step (.inr rfl) (derives_of_atom _ left) (derives_of_atom _ right))
  | pow =>
      exact .sum_product (.product_factor (.factor_power
        (.power_step left (derives_of_atom _ right))))

end Grammar

namespace Expr

open Token (Spells)
open Grammar (Derives derives_of_atom derives_binary)

/-- Every constant is a finite number. -/
def isFinite : Expr → Bool
  | const value => value.value.isFinite
  | var _ => true
  | unary _ a => a.isFinite
  | binary _ a b => a.isFinite && b.isFinite
  | ternary _ a b c => a.isFinite && b.isFinite && c.isFinite

/-- The text spells tokens that derive the expression, as an atom or, at the top, as a sum. -/
def Printed (top : Bool) (e : Expr) : Prop :=
  ∃ ts, Derives (if top then .sum else .atom) ts e ∧ Spells (e.print top) ts

theorem printed_const (top : Bool) {value : Number} (finite : value.value.isFinite = true) :
    Printed top (.const value) := by
  cases value with
  | negativeNan => exact absurd finite (by decide)
  | float x =>
      have finite : x.isFinite = true := finite
      rcases Shortest.text_spec finite with ⟨cs, coefficient, places, mantissa, back, shown⟩
      have spells := Token.spells_number mantissa (by rw [back]; exact Binary64.isFinite_abs finite)
      have atom := Derives.number x.abs
      rw [back] at spells
      have sign : (Number.float x).isNegative = Binary64.isNegative x := rfl
      have text : (Number.float x).text = Shortest.text x := rfl
      cases negative : Binary64.isNegative x with
      | false =>
          rw [← Binary64.eq_abs finite negative] at spells atom
          refine ⟨_, derives_of_atom _ atom, ?_⟩
          simp only [print, sign, text, shown, negative, Bool.false_and, Bool.false_eq_true,
            ↓reduceIte]
          exact spells
      | true =>
          have minus := Derives.factor_minus_const (derives_of_atom .factor atom)
          rw [Binary64.negated_float (Binary64.isFinite_abs finite),
            ← Binary64.eq_neg_abs finite negative] at minus
          have sum := Derives.sum_product (.product_factor minus)
          have signed := Spells.symbol (.operator .sub) spells
          cases top with
          | true =>
              refine ⟨_, sum, ?_⟩
              simp only [print, sign, text, shown, negative, Bool.not_true, Bool.and_false,
                Bool.false_eq_true, ↓reduceIte]
              exact signed
          | false =>
              refine ⟨_, .group sum, ?_⟩
              simp only [print, sign, text, shown, negative, Bool.not_false, Bool.and_self,
                ↓reduceIte]
              exact signed.parenthesized

theorem printed_var (top : Bool) (v : Variable) : Printed top (.var v) := by
  refine ⟨_, derives_of_atom _ (.var v), ?_⟩
  apply Token.spells_name
  · cases v <;> decide
  · cases v <;> decide

theorem printed_unary (top : Bool) (op : Unary) {a : Expr} (operand : Printed true a) :
    Printed top (.unary op a) := by
  rcases operand with ⟨ts, derived, spells⟩
  refine ⟨_, derives_of_atom _ (.unary op derived), ?_⟩
  have name : Spells op.name.toList [.name op.name] := by
    apply Token.spells_name
    · cases op <;> decide
    · cases op <;> decide
  exact name.followed .opening (spells.followed .closing Token.spells_nil)

theorem printed_binary (top : Bool) (op : Binary) {a b : Expr} (left : Printed false a)
    (right : Printed false b) : Printed top (.binary op a b) := by
  rcases left with ⟨ts, derivedLeft, spellsLeft⟩
  rcases right with ⟨us, derivedRight, spellsRight⟩
  have sum := derives_binary op derivedLeft derivedRight
  have spells := spellsLeft.followed (.operator op) spellsRight
  cases top with
  | true => exact ⟨_, sum, spells⟩
  | false => exact ⟨_, .group sum, spells.parenthesized⟩

theorem printed_ternary (top : Bool) (op : Ternary) {a b c : Expr} (first : Printed true a)
    (second : Printed true b) (third : Printed true c) : Printed top (.ternary op a b c) := by
  rcases first with ⟨ts, derivedFirst, spellsFirst⟩
  rcases second with ⟨us, derivedSecond, spellsSecond⟩
  rcases third with ⟨vs, derivedThird, spellsThird⟩
  refine ⟨_, derives_of_atom _ (.ternary op derivedFirst derivedSecond derivedThird), ?_⟩
  have name : Spells op.name.toList [.name op.name] := by
    apply Token.spells_name
    · cases op
      decide
    · cases op
      decide
  have last := spellsThird.followed .closing Token.spells_nil
  have arguments := spellsFirst.followed .comma (spellsSecond.followed .comma last.blank).blank
  have spells := name.followed .opening arguments
  simpa [print, parenthesized] using spells

theorem printed (top : Bool) {e : Expr} (finite : e.isFinite = true) : Printed top e := by
  induction e generalizing top with
  | const value => exact printed_const top finite
  | var v => exact printed_var top v
  | unary op a ih => exact printed_unary top op (ih true finite)
  | binary op a b ihA ihB =>
      simp only [isFinite, Bool.and_eq_true] at finite
      exact printed_binary top op (ihA false finite.1) (ihB false finite.2)
  | ternary op a b c ihA ihB ihC =>
      simp only [isFinite, Bool.and_eq_true] at finite
      exact printed_ternary top op (ihA true finite.1.1) (ihB true finite.1.2)
        (ihC true finite.2)

theorem parse_text_of_finite {e : Expr} (finite : e.isFinite = true) :
    parse e.text = .ok e := by
  rcases printed true finite with ⟨ts, derived, spells⟩
  have splits := spells [] [] (by intro c head; cases head) .nil
  rw [List.append_nil, List.append_nil] at splits
  apply parse_of_derives _ derived
  rw [text, String.toList_ofList]
  exact splits

end Expr

namespace Token

/-- The number of a token is finite. -/
def Finite : Token → Prop
  | number x => x.isFinite = true
  | _ => True

theorem finite_of_splits {cs : List Char} {ts : List Token} (splits : Splits cs ts) :
    ∀ token ∈ ts, Finite token := by
  induction splits with
  | nil => intro token member; cases member
  | blank _ _ ih => exact ih
  | number _ _ _ _ finite _ ih => exact List.forall_mem_cons.mpr ⟨finite, ih⟩
  | name _ _ _ ih => exact List.forall_mem_cons.mpr ⟨trivial, ih⟩
  | symbol symbol _ ih =>
      refine List.forall_mem_cons.mpr ⟨?_, ih⟩
      cases symbol <;> trivial

end Token

namespace Number

theorem isFinite_negated {value : Number} (finite : value.value.isFinite = true) :
    value.negated.value.isFinite = true := by
  cases value with
  | negativeNan => exact absurd finite (by decide)
  | float x =>
      have finite : x.isFinite = true := finite
      rw [Binary64.negated_float finite]
      exact Binary64.isFinite_neg finite

end Number

namespace Expr

open Token (Finite)
open Grammar (Category Derives)

theorem finite_of_derives {c : Category} {ts : List Token} {e : Expr} (derived : Derives c ts e)
    (finite : ∀ token ∈ ts, Finite token) : e.isFinite = true := by
  induction derived with
  | sum_product _ ih => exact ih finite
  | product_factor _ ih => exact ih finite
  | factor_power _ ih => exact ih finite
  | power_atom _ ih => exact ih finite
  | sum_step _ _ _ ihA ihB | product_step _ _ _ ihA ihB | power_step _ _ ihA ihB =>
      simp only [List.forall_mem_append, List.forall_mem_cons] at finite
      rw [isFinite, ihA finite.1, ihB finite.2.2, Bool.and_self]
  | factor_plus _ ih => exact ih (List.forall_mem_cons.mp finite).2
  | factor_minus_const _ ih =>
      exact Number.isFinite_negated (ih (List.forall_mem_cons.mp finite).2)
  | factor_minus _ _ ih =>
      have one : (Number.float (-1)).value.isFinite = true := by decide
      rw [isFinite, isFinite, one, ih (List.forall_mem_cons.mp finite).2, Bool.and_self]
  | number x => exact finite _ (List.mem_singleton_self _)
  | var v => rfl
  | group _ ih =>
      simp only [List.forall_mem_append, List.forall_mem_cons] at finite
      exact ih finite.1.2
  | unary op _ ih =>
      simp only [List.forall_mem_append, List.forall_mem_cons] at finite
      exact ih finite.1.2.2
  | ternary op _ _ _ ihA ihB ihC =>
      simp only [List.forall_mem_append, List.forall_mem_cons] at finite
      rcases finite with ⟨⟨⟨⟨_, _, first⟩, _, second⟩, _, third⟩, _⟩
      rw [isFinite, ihA first, ihB second, ihC third, Bool.and_self, Bool.and_self]

theorem finite_of_parse {text : String} {e : Expr} (read : parse text = .ok e) :
    e.isFinite = true := by
  rcases derives_of_parse read with ⟨ts, splits, derived⟩
  exact finite_of_derives derived (Token.finite_of_splits splits)

/-- Printing then reading is the identity on the expressions with finite constants, which are all
that can be read. -/
theorem parse_text :
    (∀ e : Expr, e.isFinite = true → parse e.text = .ok e) ∧
      ∀ (source : String) (e : Expr), parse source = .ok e → parse e.text = .ok e := by
  constructor
  · intro e finite
    exact parse_text_of_finite finite
  · intro source e read
    exact parse_text_of_finite (finite_of_parse read)

/-- The text of this expression is `(-0.5)^(x-(-0))`. -/
theorem parse_text_signed :
    let e : Expr := .binary .pow (.const (.float (-0.5)))
      (.binary .sub (.var .x) (.const (.float (-0.0))))
    parse e.text = .ok e := by
  intro e
  exact parse_text.2 e.text e (parse_text.1 e (by decide))

end Expr

end FractalBreeder
