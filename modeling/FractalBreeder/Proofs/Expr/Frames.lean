import FractalBreeder.Proofs.Expr.Acceptance
import FractalBreeder.Proofs.Expr.Octets

/-!
Pieces brought into postfix order with a stack on which a call and its parenthesis are entries of
their own, so that a parenthesis could stand on something else than its call, and with symbols that
could be no operator. Everything goes the way it goes for tokens, and what is handed over always
builds one tree.
-/
namespace FractalBreeder.Pieces

open Postfix (negatePrecedence Pending)

/-- The open parenthesis of a call: its place and the number of commas so far. -/
structure Frame where
  position : Nat
  commas : Nat
  deriving Repr

/-- What waits on the stack. A call and its parenthesis are entries of their own. -/
inductive Entry where
  | binary (op : Binary)
  | negate
  | call (f : Function)
  | parenthesis (frame : Option Frame)
  deriving Repr

/-- How strongly an operator binds, and what it becomes in the output. -/
def Entry.operator? : Entry → Option (Nat × Postfix)
  | binary op => some (op.precedence, .binary op)
  | negate => some (negatePrecedence, .negate)
  | call _ | parenthesis _ => none

/-- The operators output before `op` is stacked, and what goes on waiting. -/
def release (op : Binary) : List Entry → List Postfix × List Entry
  | [] => ([], [])
  | top :: rest =>
    match top.operator? with
    | none => ([], top :: rest)
    | some (strength, item) =>
      if op.precedence < strength || (strength == op.precedence && !op.isRightAssociative) then
        let (items, left) := release op rest; (item :: items, left)
      else ([], top :: rest)

/-- What is output up to the innermost open parenthesis, calls included. -/
def drain : List Entry → List Postfix × List Entry
  | .binary op :: rest => let (items, left) := drain rest; (.binary op :: items, left)
  | .negate :: rest => let (items, left) := drain rest; (.negate :: items, left)
  | .call f :: rest => let (items, left) := drain rest; (.call f :: items, left)
  | stack => ([], stack)

/-- What is output at the end of a text of the given length. -/
def finish (length : Nat) : List Entry → Except Mishap (List Postfix)
  | [] => .ok []
  | .binary op :: rest => (.binary op :: ·) <$> finish length rest
  | .negate :: rest => (.negate :: ·) <$> finish length rest
  | .call _ :: _ | .parenthesis _ :: _ => .error (.fault ⟨length, .unbalancedOpening⟩)

/-- A symbol, other than a sign, without a left operand. -/
def missingLeftOperand (position : Nat) (symbol : Char) : Mishap :=
  match Binary.ofSymbol? symbol with
  | some op => .fault ⟨position, .missingLeftOperand op⟩
  | none => .strangeOperator position symbol

/-- The postfix sequence of the remaining pieces; `awaiting` says whether an operand must come
next. -/
def arrange (length : Nat) (stack : List Entry) (awaiting : Bool) :
    List (Nat × Piece) → Except Mishap (List Postfix)
  | [] => if awaiting then .error (.fault ⟨length, .unexpectedEnd⟩) else finish length stack
  | (position, piece) :: rest =>
    match piece with
    | .number value =>
      if awaiting then (.number value :: ·) <$> arrange length stack false rest
      else .error (.fault ⟨position, .expectedOperator⟩)
    | .name name =>
      if !awaiting then .error (.fault ⟨position, .expectedOperator⟩)
      else
        match Variable.ofName? name with
        | some v => (.var v :: ·) <$> arrange length stack false rest
        | none =>
          match Function.ofName? name with
          | none => .error (.fault ⟨position, .unknownName name⟩)
          | some f =>
            match rest with
            | (opening, .opening) :: rest =>
              arrange length (.parenthesis (some ⟨opening, 0⟩) :: .call f :: stack) true rest
            | _ => .error (.fault ⟨position, .expectedOpening f⟩)
    | .opening =>
      if awaiting then arrange length (.parenthesis none :: stack) true rest
      else .error (.fault ⟨position, .expectedOperator⟩)
    | .symbol c =>
      if awaiting then
        match c with
        | '-' => arrange length (.negate :: stack) true rest
        | '+' => arrange length stack true rest
        | _ => .error (missingLeftOperand position c)
      else
        match Binary.ofSymbol? c with
        | none => .error (.unknownOperator position c)
        | some op =>
          let (items, left) := release op stack
          (items ++ ·) <$> arrange length (.binary op :: left) true rest
    | .comma =>
      if awaiting then .error (.fault ⟨position, .emptyArgument⟩)
      else
        match drain stack with
        | (items, .parenthesis (some frame) :: left) =>
          (items ++ ·) <$> arrange length
            (.parenthesis (some ⟨frame.position, frame.commas + 1⟩) :: left) true rest
        | _ => .error (.fault ⟨position, .strayComma⟩)
    | .closing =>
      if awaiting then .error (.fault ⟨position, .missingOperandBeforeClosing⟩)
      else
        match drain stack with
        | (items, .parenthesis none :: left) => (items ++ ·) <$> arrange length left false rest
        | (items, .parenthesis (some frame) :: .call f :: left) =>
          if frame.commas + 1 = f.arity then
            (fun more => items ++ .call f :: more) <$> arrange length left false rest
          else .error (.fault ⟨frame.position, .wrongArgumentCount f (frame.commas + 1)⟩)
        | (_, .parenthesis (some frame) :: _) => .error (.callWithoutFunction frame.position)
        | _ => .error (.fault ⟨position, .unbalancedClosing⟩)

/-! ### The stack with its parentheses -/

/-- The entries of what waits: the parenthesis of a call stands on the call. -/
def entries : Pending → List Entry
  | .binary op => [.binary op]
  | .negate => [.negate]
  | .group => [.parenthesis none]
  | .call f position commas => [.parenthesis (some ⟨position, commas⟩), .call f]

theorem release_entries (op : Binary) (pending : List Pending) :
    release op (pending.flatMap entries) =
      ((Postfix.release op pending).1, (Postfix.release op pending).2.flatMap entries) := by
  induction pending with
  | nil => rfl
  | cons top rest ih =>
    cases top with
    | group | call => rfl
    | binary waiting =>
      simp only [List.flatMap_cons, entries, List.singleton_append, release, Entry.operator?,
        Postfix.release, Postfix.yieldsTo, ih]
      split <;> rfl
    | negate =>
      simp only [List.flatMap_cons, entries, List.singleton_append, release, Entry.operator?,
        Postfix.release, Postfix.yieldsTo, ih]
      split <;> rfl

theorem drain_entries (pending : List Pending) :
    drain (pending.flatMap entries) =
      ((Postfix.drain pending).1, (Postfix.drain pending).2.flatMap entries) := by
  induction pending with
  | nil => rfl
  | cons top rest ih =>
    cases top with
    | group | call => rfl
    | binary | negate =>
      simp only [List.flatMap_cons, entries, List.singleton_append, drain, Postfix.drain, ih]

theorem finish_entries (length : Nat) (pending : List Pending) :
    finish length (pending.flatMap entries) = (Postfix.finish length pending).mapError .fault := by
  induction pending with
  | nil => rfl
  | cons top rest ih =>
    cases top with
    | group | call => rfl
    | binary | negate =>
      simp only [List.flatMap_cons, entries, List.singleton_append, finish, Postfix.finish, ih]
      cases Postfix.finish length rest <;> rfl

theorem ofSymbol_symbol (op : Binary) : Binary.ofSymbol? op.symbol = some op := by
  cases op <;> rfl

/-- With the parentheses of calls as entries of their own, tokens are brought into the same order,
whatever waits. -/
def Mirrored (length : Nat) (lexemes : List Lexeme) : Prop :=
  ∀ pending awaiting,
    arrange length (pending.flatMap entries) awaiting (lexemes.map Lexeme.piece) =
      (Postfix.reorder length pending awaiting lexemes).mapError .fault

variable {length position : Nat} {rest : List Lexeme}

theorem mirrored_nil : Mirrored length [] := by
  intro pending awaiting
  cases awaiting with
  | true => rfl
  | false => exact finish_entries length pending

theorem mirrored_number (behind : Mirrored length rest) (value : Float) :
    Mirrored length (⟨position, .number value⟩ :: rest) := by
  intro pending awaiting
  cases awaiting with
  | false => rfl
  | true =>
    rw [Postfix.reorder_number, Postfix.emitting]
    exact map_mapError _ (behind pending false)

theorem mirrored_name (behind : Mirrored length rest) (inside : Mirrored length rest.tail)
    (name : String) : Mirrored length (⟨position, .name name⟩ :: rest) := by
  intro pending awaiting
  rw [List.map_cons, Lexeme.piece, Piece.ofToken, arrange.eq_def, Postfix.reorder.eq_def]
  cases awaiting with
  | false => rfl
  | true =>
    simp only [Bool.not_true, Bool.false_eq_true, ↓reduceIte]
    cases Variable.ofName? name with
    | some v => exact map_mapError _ (behind pending false)
    | none =>
      cases Function.ofName? name with
      | none => rfl
      | some f =>
        cases rest with
        | nil => rfl
        | cons l others =>
          obtain ⟨opening, token⟩ := l
          cases token with
          | opening => exact inside (.call f opening 0 :: pending) true
          | number | name | operator | closing | comma => rfl

theorem mirrored_operator (behind : Mirrored length rest) (op : Binary) :
    Mirrored length (⟨position, .operator op⟩ :: rest) := by
  intro pending awaiting
  cases awaiting with
  | true =>
    cases op with
    | add => exact behind pending true
    | sub => exact behind (.negate :: pending) true
    | mul | div | pow => rfl
  | false =>
    rw [List.map_cons, Lexeme.piece, Piece.ofToken, arrange.eq_def, Postfix.reorder_operator rfl,
      Postfix.emitting]
    simp only [Bool.false_eq_true, ↓reduceIte, ofSymbol_symbol, release_entries]
    exact map_mapError _ (behind (.binary op :: (Postfix.release op pending).2) true)

theorem mirrored_opening (behind : Mirrored length rest) :
    Mirrored length (⟨position, .opening⟩ :: rest) := by
  intro pending awaiting
  cases awaiting with
  | false => rfl
  | true => exact behind (.group :: pending) true

theorem mirrored_comma (behind : Mirrored length rest) :
    Mirrored length (⟨position, .comma⟩ :: rest) := by
  intro pending awaiting
  cases awaiting with
  | true => rfl
  | false =>
    rw [List.map_cons, Lexeme.piece, Piece.ofToken, arrange.eq_def, Postfix.reorder.eq_def]
    simp only [Bool.false_eq_true, ↓reduceIte, drain_entries]
    have shape := Postfix.drained pending
    generalize Postfix.drain pending = result at shape ⊢
    obtain ⟨items, left⟩ := result
    cases shape with
    | empty | group => rfl
    | call f opening commas left =>
      exact map_mapError _ (behind (.call f opening (commas + 1) :: left) true)

theorem mirrored_closing (behind : Mirrored length rest) :
    Mirrored length (⟨position, .closing⟩ :: rest) := by
  intro pending awaiting
  cases awaiting with
  | true => rfl
  | false =>
    rw [List.map_cons, Lexeme.piece, Piece.ofToken, arrange.eq_def, Postfix.reorder.eq_def]
    simp only [Bool.false_eq_true, ↓reduceIte, drain_entries]
    have shape := Postfix.drained pending
    generalize Postfix.drain pending = result at shape ⊢
    obtain ⟨items, left⟩ := result
    cases shape with
    | empty => rfl
    | group left => exact map_mapError _ (behind left false)
    | call f opening commas left =>
      simp only [List.flatMap_cons, entries, List.cons_append, List.nil_append]
      split
      · exact map_mapError _ (behind left false)
      · rfl

theorem mirrored (length : Nat) (lexemes : List Lexeme) : Mirrored length lexemes := by
  induction lexemes using Postfix.calls_induction with
  | nil => exact mirrored_nil
  | cons position token rest behind inside =>
    cases token with
    | number value => exact mirrored_number behind value
    | name name => exact mirrored_name behind inside name
    | operator op => exact mirrored_operator behind op
    | opening => exact mirrored_opening behind
    | closing => exact mirrored_closing behind
    | comma => exact mirrored_comma behind

theorem arrange_lexemes (length : Nat) (lexemes : List Lexeme) :
    arrange length [] true (lexemes.map Lexeme.piece) =
      (Postfix.reorder length [] true lexemes).mapError .fault :=
  mirrored length lexemes [] true

/-! ### What is handed over -/

/-- No operand is missing on the way, and one tree is left at the end. -/
structure Builds (items : List Postfix) (e : Expr) : Prop where
  supplied : ∀ front, front <+: items → ∃ stack, Postfix.run front [] = some stack
  single : Postfix.run items [] = some [e]

theorem builds_of_tree {items : List Postfix} {e : Expr} (built : Postfix.tree? items = some e) :
    Builds items e := by
  have single : Postfix.run items [] = some [e] := by
    unfold Postfix.tree? at built
    split at built
    · next ran => exact Option.some.inj built ▸ ran
    · cases built
  refine ⟨?_, single⟩
  rintro front ⟨back, rfl⟩
  rw [Postfix.run_append] at single
  obtain ⟨stack, ran, -⟩ := Option.bind_eq_some_iff.mp single
  exact ⟨stack, ran⟩

def build (items : List Postfix) : Except Mishap Expr :=
  match Postfix.tree? items with
  | some e => .ok e
  | none => .error (.fault ⟨0, .malformed⟩)

/-- Reading a text over its bytes. -/
def parse (text : String) : Except Mishap Expr := do
  let pieces ← ofText text
  if pieces.isEmpty then .error (.fault ⟨0, .emptyExpression⟩)
  let items ← arrange text.utf8ByteSize [] true pieces
  build items

theorem parse_eq (text : String) : parse text = (Expr.parse text).mapError .fault := by
  unfold parse Expr.parse
  rw [ofText_eq]
  cases Token.lex 0 text.toList with
  | error error => rfl
  | ok lexemes =>
    have arranged := arrange_lexemes text.utf8ByteSize lexemes
    have found : told (.ok lexemes) = .ok (lexemes.map Lexeme.piece) := rfl
    rw [found]
    cases lexemes with
    | nil => rfl
    | cons l rest =>
      simp only [bind, Except.bind, List.map_cons, List.isEmpty_cons, Bool.false_eq_true,
        ↓reduceIte] at arranged ⊢
      rw [arranged]
      cases Postfix.reorder text.utf8ByteSize [] true (l :: rest) with
      | error error => rfl
      | ok items =>
        simp only [Except.mapError, build]
        cases Postfix.tree? items <;> rfl

/-- Each phase over the bytes of a text gives what it gives over the characters. -/
structure Agrees (text : String) : Prop where
  pieces : ofText text = told (Token.lex 0 text.toList)
  order : ∀ length lexemes, arrange length [] true (lexemes.map Lexeme.piece) =
    (Postfix.reorder length [] true lexemes).mapError .fault
  tree : parse text = (Expr.parse text).mapError .fault

theorem agrees (text : String) : Agrees text := ⟨ofText_eq text, arrange_lexemes, parse_eq text⟩

end FractalBreeder.Pieces
