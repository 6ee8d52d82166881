import FractalBreeder.Expr.Parser
import FractalBreeder.Proofs.Expr.Grammar

/-!
Reordering with a stack of waiting operators, compared with the grammar. What a category of the
grammar leaves on the stack is known from its strength alone: operators that every weaker operator
behind them releases. A derivation is therefore read to the same items whatever else waits, and a
token sequence that is read to its end has a derivation.
-/
namespace FractalBreeder.Postfix

open Grammar

/-- The stack of operands after a sequence of items. -/
def run (items : List Postfix) (stack : List Expr) : Option (List Expr) :=
  items.foldlM (fun stack item => item.push? stack) stack

@[simp] theorem run_nil (stack : List Expr) : run [] stack = some stack := rfl

@[simp] theorem run_cons (item : Postfix) (items : List Postfix) (stack : List Expr) :
    run (item :: items) stack = (item.push? stack).bind (run items) := rfl

@[simp] theorem run_append (front back : List Postfix) (stack : List Expr) :
    run (front ++ back) stack = (run front stack).bind (run back) := by
  simp only [run, List.foldlM_append]
  rfl

theorem tree_of_run {items : List Postfix} {e : Expr} (ran : run items [] = some [e]) :
    tree? items = some e := by
  unfold tree?
  rw [show items.foldlM (fun stack item => item.push? stack) [] = some [e] from ran]

/-- Output in front of what a computation gives. -/
def emitting (items : List Postfix) (result : Except ParseError (List Postfix)) :
    Except ParseError (List Postfix) :=
  (items ++ ·) <$> result

@[simp] theorem emitting_ok (front back : List Postfix) :
    emitting front (.ok back) = .ok (front ++ back) := rfl

@[simp] theorem emitting_nil (result : Except ParseError (List Postfix)) :
    emitting [] result = result := by
  cases result <;> rfl

@[simp] theorem emitting_emitting (front back : List Postfix)
    (result : Except ParseError (List Postfix)) :
    emitting front (emitting back result) = emitting (front ++ back) result := by
  cases result with
  | error fault => rfl
  | ok items => simp

theorem ok_of_map {change : List Postfix → List Postfix} {items : List Postfix}
    {result : Except ParseError (List Postfix)} (equal : change <$> result = .ok items) :
    ∃ before, result = .ok before := by
  cases result with
  | error fault => cases equal
  | ok before => exact ⟨before, rfl⟩

theorem error_of_map {change : List Postfix → List Postfix} {error : ParseError}
    {result : Except ParseError (List Postfix)} (equal : change <$> result = .error error) :
    result = .error error := by
  cases result with
  | error _ => exact equal
  | ok _ => cases equal

namespace Pending

/-- What a waiting operator becomes in the output; an open parenthesis has no output. -/
def item? : Pending → Option Postfix
  | .binary op => some (.binary op)
  | .negate => some .negate
  | .group | .call .. => none

/-- A waiting operator that binds at least as strongly as given. -/
def Binds (strength : Nat) : Pending → Prop
  | .binary op => strength ≤ op.precedence
  | .negate => strength ≤ negatePrecedence
  | .group | .call .. => False

theorem binds_mono {weak strong : Nat} (less : weak ≤ strong) {p : Pending}
    (binds : p.Binds strong) : p.Binds weak := by
  cases p with
  | binary op => exact Nat.le_trans less binds
  | negate => exact Nat.le_trans less binds
  | group => exact binds
  | call f position commas => exact binds

/-- Nothing on top of the stack binds as strongly as given. -/
def Floor (strength : Nat) (pending : List Pending) : Prop :=
  ∀ p ∈ pending.head?, ¬ p.Binds strength

theorem floor_nil (strength : Nat) : Floor strength [] := by
  intro p top
  cases top

theorem floor_mono {weak strong : Nat} (less : weak ≤ strong) {pending : List Pending}
    (floor : Floor weak pending) : Floor strong pending := by
  intro p top binds
  exact floor p top (binds_mono less binds)

end Pending

/-- The output of operators that are all released, the topmost first. -/
def emit (ops : List Pending) : List Postfix := ops.filterMap Pending.item?

@[simp] theorem emit_nil : emit [] = [] := rfl

@[simp] theorem emit_append (front back : List Pending) :
    emit (front ++ back) = emit front ++ emit back := by
  simp [emit]

@[simp] theorem emit_binary (op : Binary) (ops : List Pending) :
    emit (.binary op :: ops) = .binary op :: emit ops := rfl

@[simp] theorem emit_negate (ops : List Pending) :
    emit (.negate :: ops) = .negate :: emit ops := rfl

theorem yieldsTo_of_binds {op : Binary} {p : Pending} (left : op.isRightAssociative = false)
    (binds : p.Binds op.precedence) : yieldsTo op p = p.item? := by
  cases p with
  | binary top =>
      have order : op.precedence < top.precedence ∨ top.precedence = op.precedence := by
        have weaker : op.precedence ≤ top.precedence := binds
        omega
      simp [yieldsTo, Pending.item?, left, order]
  | negate =>
      have order : op.precedence < negatePrecedence ∨ negatePrecedence = op.precedence := by
        have weaker : op.precedence ≤ negatePrecedence := binds
        omega
      simp [yieldsTo, Pending.item?, left, order]
  | group => cases binds
  | call f position commas => cases binds

theorem yieldsTo_of_not_binds {op : Binary} {p : Pending} (stays : ¬ p.Binds op.precedence) :
    yieldsTo op p = none := by
  cases p with
  | binary top =>
      have stronger : top.precedence < op.precedence := Nat.lt_of_not_le stays
      have order : ¬ op.precedence < top.precedence ∧ ¬ top.precedence = op.precedence := by omega
      simp [yieldsTo, order]
  | negate =>
      have stronger : negatePrecedence < op.precedence := Nat.lt_of_not_le stays
      have order : ¬ op.precedence < negatePrecedence ∧ ¬ negatePrecedence = op.precedence := by
        omega
      simp [yieldsTo, order]
  | group => rfl
  | call f position commas => rfl

theorem item_of_binds {strength : Nat} {p : Pending} (binds : p.Binds strength) :
    ∃ item, p.item? = some item := by
  cases p with
  | binary op => exact ⟨_, rfl⟩
  | negate => exact ⟨_, rfl⟩
  | group => cases binds
  | call f position commas => cases binds

/-- An operator that groups to the left releases exactly what binds as strongly as itself. -/
theorem release_append {op : Binary} (left : op.isRightAssociative = false)
    {ops pending : List Pending} (bound : ∀ p ∈ ops, p.Binds op.precedence)
    (floor : Pending.Floor op.precedence pending) :
    release op (ops ++ pending) = (emit ops, pending) := by
  induction ops with
  | nil =>
      cases pending with
      | nil => rfl
      | cons top rest =>
          have stays := yieldsTo_of_not_binds (floor top rfl)
          simp [release, stays]
  | cons top rest ih =>
      have binds := bound top List.mem_cons_self
      rcases item_of_binds binds with ⟨item, output⟩
      have yields := yieldsTo_of_binds left binds
      rw [output] at yields
      have tail := ih (fun p member => bound p (List.mem_cons_of_mem _ member))
      simp [release, yields, tail, emit, output]

/-- A power groups to the right and binds most strongly, so nothing is released before it. -/
theorem release_pow (pending : List Pending) : release .pow pending = ([], pending) := by
  cases pending with
  | nil => rfl
  | cons top rest =>
      have stays : yieldsTo .pow top = none := by
        cases top with
        | binary op => cases op <;> rfl
        | negate => rfl
        | group => rfl
        | call f position commas => rfl
      simp [release, stays]

/-- Everything above an open parenthesis is output when the parenthesis is reached. -/
theorem drain_append {strength : Nat} {ops opened : List Pending}
    (bound : ∀ p ∈ ops, p.Binds strength) (stops : ∀ p ∈ opened.head?, p.item? = none) :
    drain (ops ++ opened) = (emit ops, opened) := by
  induction ops with
  | nil =>
      cases opened with
      | nil => rfl
      | cons frame rest =>
          have silent := stops frame rfl
          cases frame with
          | binary op => cases silent
          | negate => cases silent
          | group => rfl
          | call f position commas => rfl
  | cons top rest ih =>
      have tail := ih (fun p member => bound p (List.mem_cons_of_mem _ member))
      have binds := bound top List.mem_cons_self
      cases top with
      | binary op => simp [drain, tail]
      | negate => simp [drain, tail]
      | group => cases binds
      | call f position commas => cases binds

/-- A call takes two tokens at once, so that what follows the second has to be known as well. -/
theorem calls_induction {motive : List Lexeme → Prop} (nil : motive [])
    (cons : ∀ position token rest, motive rest → motive rest.tail →
      motive (⟨position, token⟩ :: rest)) (lexemes : List Lexeme) : motive lexemes := by
  have both : motive lexemes ∧ motive lexemes.tail := by
    induction lexemes with
    | nil => exact ⟨nil, nil⟩
    | cons l rest ih => exact ⟨cons l.position l.token rest ih.1 ih.2, ih.1⟩
  exact both.1

/-- What draining leaves: nothing, or an open parenthesis on top. -/
inductive Drained : List Pending → Prop where
  | empty : Drained []
  | group (left : List Pending) : Drained (.group :: left)
  | call (f : Function) (position commas : Nat) (left : List Pending) :
      Drained (.call f position commas :: left)

theorem drained (pending : List Pending) : Drained (drain pending).2 := by
  induction pending with
  | nil => exact .empty
  | cons top rest ih =>
    cases top with
    | binary | negate => exact ih
    | group => exact .group rest
    | call f position commas => exact .call f position commas rest

theorem release_suffix (op : Binary) (pending : List Pending) :
    (release op pending).2 <:+ pending := by
  induction pending with
  | nil => exact List.suffix_rfl
  | cons top rest ih =>
    rw [release]
    split
    · exact ih.trans (List.suffix_cons top rest)
    · exact List.suffix_rfl

theorem drain_suffix (pending : List Pending) : (drain pending).2 <:+ pending := by
  induction pending with
  | nil => exact List.suffix_rfl
  | cons top rest ih =>
    cases top with
    | binary | negate => exact ih.trans (List.suffix_cons _ rest)
    | group | call => exact List.suffix_rfl

theorem finish_of_binds {strength : Nat} {ops : List Pending} (length : Nat)
    (bound : ∀ p ∈ ops, p.Binds strength) : finish length ops = .ok (emit ops) := by
  induction ops with
  | nil => rfl
  | cons top rest ih =>
      have tail := ih (fun p member => bound p (List.mem_cons_of_mem _ member))
      have binds := bound top List.mem_cons_self
      cases top with
      | binary op => simp only [finish, tail]; rfl
      | negate => simp only [finish, tail]; rfl
      | group => cases binds
      | call f position commas => cases binds

theorem finish_opened {strength length : Nat} {ops pending : List Pending} {frame : Pending}
    (bound : ∀ p ∈ ops, p.Binds strength) (silent : frame.item? = none) :
    finish length (ops ++ frame :: pending) = .error ⟨length, .unbalancedOpening⟩ := by
  induction ops with
  | nil =>
      cases frame with
      | binary op => cases silent
      | negate => cases silent
      | group => rfl
      | call f position commas => rfl
  | cons top rest ih =>
      have tail := ih (fun p member => bound p (List.mem_cons_of_mem _ member))
      have binds := bound top List.mem_cons_self
      cases top with
      | binary op => simp only [List.cons_append, finish, tail]; rfl
      | negate => simp only [List.cons_append, finish, tail]; rfl
      | group => cases binds
      | call f position commas => cases binds

end FractalBreeder.Postfix
