import FractalBreeder.Proofs.Expr.Reordering

/-!
One step of the reordering for each kind of token: what it does to the stack, and, the other way
round, which tokens an accepted sequence can start with.
-/
namespace FractalBreeder

theorem Variable.ofName_name (v : Variable) : Variable.ofName? v.name = some v := by
  cases v <;> rfl

theorem Variable.name_of_ofName {name : String} {v : Variable}
    (named : Variable.ofName? name = some v) : name = v.name := by
  have found := List.find?_some named
  simpa using Eq.symm (beq_iff_eq.mp found)

theorem Function.ofName_name (f : Function) : Function.ofName? f.name = some f := by
  cases f with
  | unary op => cases op <;> rfl
  | ternary op => cases op; rfl

theorem Function.name_of_ofName {name : String} {f : Function}
    (named : Function.ofName? name = some f) : name = f.name := by
  unfold Function.ofName? at named
  cases asUnary : Unary.ofName? name with
  | some op =>
      have chosen : some (Function.unary op) = some f := by
        rw [asUnary] at named
        exact named
      cases chosen
      have found := List.find?_some asUnary
      exact (beq_iff_eq.mp found).symm
  | none =>
      cases asTernary : Ternary.ofName? name with
      | some op =>
          have chosen : some (Function.ternary op) = some f := by
            rw [asUnary, asTernary] at named
            exact named
          cases chosen
          have found := List.find?_some asTernary
          exact (beq_iff_eq.mp found).symm
      | none =>
          rw [asUnary, asTernary] at named
          cases named

theorem Function.name_no_variable (f : Function) : Variable.ofName? f.name = none := by
  cases f with
  | unary op => cases op <;> rfl
  | ternary op => cases op; rfl

namespace Postfix

variable {length position opening : Nat} {pending left : List Pending} {rest : List Lexeme}
  {items : List Postfix}

theorem reorder_number (value : Float) :
    reorder length pending true (⟨position, .number value⟩ :: rest) =
      emitting [.number value] (reorder length pending false rest) := rfl

theorem reorder_variable (v : Variable) :
    reorder length pending true (⟨position, .name v.name⟩ :: rest) =
      emitting [.var v] (reorder length pending false rest) := by
  rw [reorder]
  simp only [Variable.ofName_name]
  rfl

theorem reorder_call (f : Function) :
    reorder length pending true (⟨position, .name f.name⟩ :: ⟨opening, .opening⟩ :: rest) =
      reorder length (.call f opening 0 :: pending) true rest := by
  rw [reorder]
  simp only [Function.name_no_variable, Function.ofName_name]
  rfl

theorem reorder_opening :
    reorder length pending true (⟨position, .opening⟩ :: rest) =
      reorder length (.group :: pending) true rest := rfl

theorem reorder_plus :
    reorder length pending true (⟨position, .operator .add⟩ :: rest) =
      reorder length pending true rest := rfl

theorem reorder_minus :
    reorder length pending true (⟨position, .operator .sub⟩ :: rest) =
      reorder length (.negate :: pending) true rest := rfl

theorem reorder_operator {op : Binary} (released : release op pending = (items, left)) :
    reorder length pending false (⟨position, .operator op⟩ :: rest) =
      emitting items (reorder length (.binary op :: left) true rest) := by
  have step : reorder length pending false (⟨position, .operator op⟩ :: rest) =
      emitting (release op pending).1
        (reorder length (.binary op :: (release op pending).2) true rest) := rfl
  rw [step, released]

theorem reorder_comma {f : Function} {commas : Nat}
    (drained : drain pending = (items, .call f opening commas :: left)) :
    reorder length pending false (⟨position, .comma⟩ :: rest) =
      emitting items (reorder length (.call f opening (commas + 1) :: left) true rest) := by
  rw [reorder]
  simp only [drained]
  rfl

theorem reorder_closing_group (drained : drain pending = (items, .group :: left)) :
    reorder length pending false (⟨position, .closing⟩ :: rest) =
      emitting items (reorder length left false rest) := by
  rw [reorder]
  simp only [drained]
  rfl

theorem reorder_closing_call {f : Function} {commas : Nat} (complete : commas + 1 = f.arity)
    (drained : drain pending = (items, .call f opening commas :: left)) :
    reorder length pending false (⟨position, .closing⟩ :: rest) =
      emitting (items ++ [.call f]) (reorder length left false rest) := by
  rw [reorder]
  simp only [drained, complete]
  simp [emitting]

def Accepts (length : Nat) (pending : List Pending) (awaiting : Bool) (lexemes : List Lexeme) :
    Prop :=
  ∃ items, reorder length pending awaiting lexemes = .ok items

/-- How an accepted sequence goes on where an operand is awaited. -/
inductive Operand (length : Nat) (pending : List Pending) : List Lexeme → Prop where
  | number {position : Nat} {x : Float} {rest : List Lexeme} :
      Accepts length pending false rest →
      Operand length pending (⟨position, .number x⟩ :: rest)
  | var {position : Nat} {v : Variable} {rest : List Lexeme} :
      Accepts length pending false rest →
      Operand length pending (⟨position, .name v.name⟩ :: rest)
  | call {position opening : Nat} {f : Function} {rest : List Lexeme} :
      Accepts length (.call f opening 0 :: pending) true rest →
      Operand length pending (⟨position, .name f.name⟩ :: ⟨opening, .opening⟩ :: rest)
  | group {position : Nat} {rest : List Lexeme} :
      Accepts length (.group :: pending) true rest →
      Operand length pending (⟨position, .opening⟩ :: rest)
  | plus {position : Nat} {rest : List Lexeme} :
      Accepts length pending true rest →
      Operand length pending (⟨position, .operator .add⟩ :: rest)
  | minus {position : Nat} {rest : List Lexeme} :
      Accepts length (.negate :: pending) true rest →
      Operand length pending (⟨position, .operator .sub⟩ :: rest)

theorem operand_of_accepts {lexemes : List Lexeme} (accepts : Accepts length pending true lexemes) :
    Operand length pending lexemes := by
  rcases accepts with ⟨items, equal⟩
  match lexemes with
  | [] => cases equal
  | ⟨position, .number x⟩ :: rest =>
      rw [reorder_number] at equal
      exact .number (ok_of_map equal)
  | ⟨position, .name name⟩ :: rest =>
      rw [reorder.eq_def] at equal
      simp only [Bool.not_true, Bool.false_eq_true, ↓reduceIte] at equal
      split at equal
      · next v named =>
          cases Variable.name_of_ofName named
          exact .var (ok_of_map equal)
      · split at equal
        · cases equal
        · next f named =>
            cases Function.name_of_ofName named
            split at equal
            · exact .call ⟨items, equal⟩
            · cases equal
  | ⟨position, .operator op⟩ :: rest =>
      cases op with
      | add => exact .plus ⟨items, reorder_plus.symm.trans equal⟩
      | sub => exact .minus ⟨items, reorder_minus.symm.trans equal⟩
      | mul => cases equal
      | div => cases equal
      | pow => cases equal
  | ⟨position, .opening⟩ :: rest => exact .group ⟨items, reorder_opening.symm.trans equal⟩
  | ⟨position, .closing⟩ :: rest => cases equal
  | ⟨position, .comma⟩ :: rest => cases equal

/-- How an accepted sequence goes on behind an operand. -/
inductive Continuation (length : Nat) (pending : List Pending) : List Lexeme → Prop where
  | finish {items : List Postfix} : finish length pending = .ok items →
      Continuation length pending []
  | operator {position : Nat} {op : Binary} {left : List Pending} {rest : List Lexeme} :
      Accepts length (.binary op :: left) true rest →
      Continuation length pending (⟨position, .operator op⟩ :: rest)
  | comma {position opening commas : Nat} {f : Function} {items : List Postfix}
      {left : List Pending} {rest : List Lexeme} :
      drain pending = (items, .call f opening commas :: left) →
      Accepts length (.call f opening (commas + 1) :: left) true rest →
      Continuation length pending (⟨position, .comma⟩ :: rest)
  | closingGroup {position : Nat} {items : List Postfix} {left : List Pending}
      {rest : List Lexeme} :
      drain pending = (items, .group :: left) →
      Accepts length left false rest →
      Continuation length pending (⟨position, .closing⟩ :: rest)
  | closingCall {position opening commas : Nat} {f : Function} {items : List Postfix}
      {left : List Pending} {rest : List Lexeme} :
      drain pending = (items, .call f opening commas :: left) → commas + 1 = f.arity →
      Accepts length left false rest →
      Continuation length pending (⟨position, .closing⟩ :: rest)

theorem continuation_of_accepts {lexemes : List Lexeme}
    (accepts : Accepts length pending false lexemes) : Continuation length pending lexemes := by
  rcases accepts with ⟨items, equal⟩
  match lexemes with
  | [] => exact .finish equal
  | ⟨position, .number x⟩ :: rest => cases equal
  | ⟨position, .name name⟩ :: rest =>
      rw [reorder] at equal
      cases equal
  | ⟨position, .operator op⟩ :: rest =>
      rw [reorder_operator rfl] at equal
      exact .operator (ok_of_map equal)
  | ⟨position, .opening⟩ :: rest => cases equal
  | ⟨position, .closing⟩ :: rest =>
      rw [reorder.eq_def] at equal
      simp only [Bool.false_eq_true, ↓reduceIte] at equal
      split at equal
      · next drained => exact .closingGroup drained (ok_of_map equal)
      · next drained =>
          split at equal
          · next complete => exact .closingCall drained complete (ok_of_map equal)
          · cases equal
      · cases equal
  | ⟨position, .comma⟩ :: rest =>
      rw [reorder.eq_def] at equal
      simp only [Bool.false_eq_true, ↓reduceIte] at equal
      split at equal
      · next drained => exact .comma drained (ok_of_map equal)
      · cases equal

end Postfix

end FractalBreeder
