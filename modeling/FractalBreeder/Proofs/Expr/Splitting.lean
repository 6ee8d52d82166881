import Mathlib.Data.Char
import Mathlib.Tactic.ByContra
import FractalBreeder.Proofs.Expr.Literal

/-!
How a text splits into tokens: blanks are skipped, and numbers and names are as long as they can be.
The tokens of a text are read if and only if the text splits.
-/
namespace FractalBreeder.Token

open Literal (Mantissa Exponent IsExponent Longest)
open Decimal (isDigit)

/-- The tokens of one character. -/
inductive Symbol : Char → Token → Prop where
  | opening : Symbol '(' .opening
  | closing : Symbol ')' .closing
  | comma : Symbol ',' .comma
  | operator (op : Binary) : Symbol op.symbol (.operator op)

inductive Splits : List Char → List Token → Prop where
  | nil : Splits [] []
  | blank {c : Char} {rest : List Char} {ts : List Token} : isBlank c = true → Splits rest ts →
      Splits (c :: rest) ts
  | number {mantissa exponent rest : List Char} {coefficient places : Nat} {e : Int}
      {ts : List Token} :
      Mantissa mantissa coefficient places → Exponent exponent e →
      Longest (fun cs => ∀ c ∈ cs, isNumberChar c = true) mantissa (exponent ++ rest) →
      Longest IsExponent exponent rest →
      (Literal.value coefficient places e).isFinite = true → Splits rest ts →
      Splits (mantissa ++ exponent ++ rest) (.number (Literal.value coefficient places e) :: ts)
  | name {c : Char} {word rest : List Char} {ts : List Token} : isLetter c = true →
      Longest (fun cs => ∀ c ∈ cs, isWordChar c = true) (c :: word) rest → Splits rest ts →
      Splits (c :: word ++ rest) (.name (String.ofList (c :: word)) :: ts)
  | symbol {c : Char} {token : Token} {rest : List Char} {ts : List Token} : Symbol c token →
      Splits rest ts → Splits (c :: rest) (token :: ts)

theorem readNumber_eq_ok {position : Nat} {cs : List Char} {x : Float} :
    readNumber position cs = .ok x ↔
      ∃ d, Decimal.read? cs = some d ∧ x = d.toFloat false ∧ x.isFinite = true := by
  unfold readNumber
  cases Decimal.read? cs with
  | none => simp
  | some d =>
      cases finite : (d.toFloat false).isFinite with
      | true =>
          simp only [finite, ↓reduceIte, Except.ok.injEq, Option.some.injEq, exists_eq_left']
          constructor
          · rintro rfl
            exact ⟨rfl, finite⟩
          · rintro ⟨rfl, _⟩
            rfl
      | false =>
          simp only [finite, Bool.false_eq_true, ↓reduceIte, reduceCtorEq, Option.some.injEq,
            exists_eq_left', false_iff, not_and]
          rintro rfl
          simp [finite]

/-- A number that is read is a finite literal. -/
theorem literal_of_readNumber {position : Nat} {run exponent : List Char} {x : Float}
    (numeric : ∀ c ∈ run, isNumberChar c = true) (isExponent : IsExponent exponent)
    (read : readNumber position (run ++ exponent) = .ok x) :
    ∃ coefficient places e, Mantissa run coefficient places ∧ Exponent exponent e ∧
      x = Literal.value coefficient places e ∧ x.isFinite = true := by
  obtain ⟨d, decimalRead, rfl, finite⟩ := readNumber_eq_ok.mp read
  obtain ⟨e, isExponent⟩ := isExponent
  obtain ⟨coefficient, places, isMantissa, rfl⟩ :=
    Literal.literal_of_read numeric isExponent decimalRead
  exact ⟨coefficient, places, e, isMantissa, isExponent, rfl, finite⟩

theorem symbol_of_ofChar {c : Char} {token : Token} (found : ofChar? c = some token) :
    Symbol c token := by
  unfold ofChar? at found
  split at found
  · cases found
    exact .opening
  · cases found
    exact .closing
  · cases found
    exact .comma
  · rcases Option.map_eq_some_iff.mp found with ⟨op, isOp, rfl⟩
    have same := List.find?_some isOp
    obtain rfl := beq_iff_eq.mp same
    exact .operator op

theorem ofChar_of_symbol {c : Char} {token : Token} (symbol : Symbol c token) :
    ofChar? c = some token ∧ isBlank c = false ∧ isNumberChar c = false ∧ isLetter c = false := by
  cases symbol with
  | opening => exact ⟨rfl, by decide⟩
  | closing => exact ⟨rfl, by decide⟩
  | comma => exact ⟨rfl, by decide⟩
  | operator op => cases op <;> exact ⟨rfl, by decide⟩

theorem blank_cases {c : Char} (blank : isBlank c = true) :
    c = ' ' ∨ c = '\t' ∨ c = '\n' ∨ c = '\x0c' ∨ c = '\r' := by
  simpa [isBlank, or_assoc] using blank

theorem number_char_plain {c : Char} (numeric : isNumberChar c = true) : isBlank c = false := by
  by_contra blank
  rcases blank_cases (eq_true_of_ne_false blank) with rfl | rfl | rfl | rfl | rfl
  all_goals exact absurd numeric (by decide)

theorem letter_plain {c : Char} (letter : isLetter c = true) :
    isBlank c = false ∧ isNumberChar c = false := by
  constructor
  · by_contra blank
    rcases blank_cases (eq_true_of_ne_false blank) with rfl | rfl | rfl | rfl | rfl
    all_goals exact absurd letter (by decide)
  · by_contra numeric
    have beyond : '9' < c := by
      simp only [isLetter, Bool.or_eq_true, Bool.and_eq_true, decide_eq_true_eq] at letter
      rcases letter with ⟨low, _⟩ | ⟨low, _⟩
      · exact lt_of_lt_of_le (by decide) low
      · exact lt_of_lt_of_le (by decide) low
    have limited : isDigit c = true ∨ c = '.' := by
      simpa only [isNumberChar, Bool.or_eq_true, beq_iff_eq] using eq_true_of_ne_false numeric
    rcases limited with digit | rfl
    · simp only [isDigit, Bool.and_eq_true, decide_eq_true_eq] at digit
      exact absurd digit.2 (not_le_of_gt beyond)
    · exact absurd beyond (by decide)

/-- A character that is no blank and that no token begins with. -/
def Stranger (c : Char) : Prop :=
  isBlank c = false ∧ isNumberChar c = false ∧ isLetter c = false ∧ ofChar? c = none

/-- What stands behind a token is shorter than what begins with it. -/
theorem shorter_behind {front : List Char} (nonempty : front ≠ []) (rest : List Char) :
    rest.length < (front ++ rest).length := by
  rw [List.length_append]
  exact Nat.lt_add_of_pos_left (List.length_pos_iff.mpr nonempty)

/-- How a text goes on where a token may begin. -/
inductive Opens : List Char → Prop where
  | nil : Opens []
  | blank {c : Char} {rest : List Char} : isBlank c = true → Opens (c :: rest)
  | number {run exponent rest : List Char} : run ≠ [] →
      Longest (fun cs => ∀ c ∈ cs, isNumberChar c = true) run (exponent ++ rest) →
      Longest IsExponent exponent rest → Opens (run ++ exponent ++ rest)
  | name {c : Char} {word rest : List Char} : isLetter c = true →
      Longest (fun cs => ∀ c ∈ cs, isWordChar c = true) (c :: word) rest →
      Opens (c :: word ++ rest)
  | symbol {c : Char} {token : Token} {rest : List Char} : Symbol c token → Opens (c :: rest)
  | stranger {c : Char} {rest : List Char} : Stranger c → Opens (c :: rest)

theorem opens_number {c : Char} (rest : List Char) (numeric : isNumberChar c = true) :
    Opens (c :: rest) := by
  obtain ⟨run, exponent, left, split, longestRun, longestExponent⟩ :=
    Literal.longest_number (c :: rest)
  have single := longestRun.2 [c] (by simpa using numeric)
    ⟨rest, by rw [← List.append_assoc, ← split]; rfl⟩
  rw [split]
  exact .number (List.length_pos_iff.mp single) longestRun longestExponent

theorem opens_name {c : Char} (rest : List Char) (letter : isLetter c = true) :
    Opens (c :: rest) := by
  have longest := Literal.longest_takeWhile isWordChar (c :: rest)
  have word : isWordChar c = true := by rw [isWordChar, letter, Bool.true_or]
  rw [List.takeWhile_cons_of_pos word, List.dropWhile_cons_of_pos word] at longest
  have split : c :: rest = c :: rest.takeWhile isWordChar ++ rest.dropWhile isWordChar := by
    rw [List.cons_append, List.takeWhile_append_dropWhile]
  rw [split]
  exact .name letter longest

theorem opens (cs : List Char) : Opens cs := by
  cases cs with
  | nil => exact .nil
  | cons c rest =>
    by_cases blank : isBlank c = true
    · exact .blank blank
    by_cases numeric : isNumberChar c = true
    · exact opens_number rest numeric
    by_cases letter : isLetter c = true
    · exact opens_name rest letter
    cases found : ofChar? c with
    | some token => exact .symbol (symbol_of_ofChar found)
    | none =>
      simp only [Bool.not_eq_true] at blank numeric letter
      exact .stranger ⟨blank, numeric, letter, found⟩

theorem lex_number {position : Nat} {run exponent rest : List Char} (nonempty : run ≠ [])
    (longestRun : Longest (fun cs => ∀ c ∈ cs, isNumberChar c = true) run (exponent ++ rest))
    (longestExponent : Longest IsExponent exponent rest) :
    lex position (run ++ exponent ++ rest) = (do
      let value ← readNumber position (run ++ exponent)
      let lexemes ← lex (position + (run ++ exponent).length) rest
      pure (⟨position, number value⟩ :: lexemes)) := by
  have measured := Literal.numberLength_of_longest longestRun longestExponent
  rcases List.exists_cons_of_ne_nil nonempty with ⟨c, tail, rfl⟩
  have isNumber := longestRun.1 c List.mem_cons_self
  have taken : (c :: (tail ++ exponent ++ rest)).take (c :: (tail ++ exponent)).length =
      c :: (tail ++ exponent) := List.take_left' rfl
  have dropped : (tail ++ exponent ++ rest).drop ((c :: (tail ++ exponent)).length - 1) = rest :=
    List.drop_left' rfl
  simp only [List.cons_append] at measured ⊢
  rw [lex]
  simp only [number_char_plain isNumber, isNumber, Bool.false_eq_true, ↓reduceIte, measured,
    taken, dropped]

theorem lex_name {position : Nat} {c : Char} {word rest : List Char} (letter : isLetter c = true)
    (longest : Longest (fun cs => ∀ c ∈ cs, isWordChar c = true) (c :: word) rest) :
    lex position (c :: word ++ rest) = (do
      let lexemes ← lex (position + (c :: word).length) rest
      pure (⟨position, name (String.ofList (c :: word))⟩ :: lexemes)) := by
  have taken := Literal.takeWhile_of_longest longest
  rcases letter_plain letter with ⟨notBlank, notNumber⟩
  have dropped : (word ++ rest).drop ((c :: word).length - 1) = rest := List.drop_left
  simp only [List.cons_append] at taken ⊢
  rw [lex]
  simp only [notBlank, notNumber, letter, Bool.false_eq_true, ↓reduceIte, taken, dropped]

theorem lex_symbol {position : Nat} {c : Char} {token : Token} (symbol : Symbol c token)
    (rest : List Char) :
    lex position (c :: rest) = (do
      let lexemes ← lex (position + 1) rest
      pure (⟨position, token⟩ :: lexemes)) := by
  rcases ofChar_of_symbol symbol with ⟨found, notBlank, notNumber, notLetter⟩
  rw [lex]
  simp only [notBlank, notNumber, notLetter, Bool.false_eq_true, ↓reduceIte, found]

theorem lex_stranger {position : Nat} {c : Char} (stranger : Stranger c) (rest : List Char) :
    lex position (c :: rest) = .error ⟨position, .unexpectedCharacter (leadingByte c)⟩ := by
  obtain ⟨notBlank, notNumber, notLetter, notFound⟩ := stranger
  rw [lex]
  simp only [notBlank, notNumber, notLetter, Bool.false_eq_true, ↓reduceIte, notFound]

theorem bind_eq_ok {α β : Type} {first : Except ParseError α} {next : α → Except ParseError β}
    {result : β} : first >>= next = .ok result ↔ ∃ a, first = .ok a ∧ next a = .ok result := by
  cases first with
  | error _ => simp [bind, Except.bind]
  | ok a => simp [bind, Except.bind]

theorem bind_eq_error {α β : Type} {first : Except ParseError α} {next : α → Except ParseError β}
    {error : ParseError} :
    first >>= next = .error error ↔
      first = .error error ∨ ∃ a, first = .ok a ∧ next a = .error error := by
  cases first <;> simp [bind, Except.bind]

theorem splits_of_lex {position : Nat} {cs : List Char} {lexemes : List Lexeme}
    (read : lex position cs = .ok lexemes) : Splits cs (lexemes.map Lexeme.token) := by
  induction size : cs.length using Nat.strong_induction_on generalizing position cs lexemes with
  | _ size ih =>
    subst size
    cases opens cs with
    | nil =>
        rw [lex, Except.ok.injEq] at read
        subst read
        exact .nil
    | @blank c rest blank =>
        rw [lex, if_pos blank] at read
        exact .blank blank (ih rest.length (Nat.lt_succ_self _) read rfl)
    | @number run exponent rest nonempty longestRun longestExponent =>
        have shorter := shorter_behind (List.append_ne_nil_of_left_ne_nil nonempty exponent) rest
        rw [lex_number nonempty longestRun longestExponent] at read
        rcases bind_eq_ok.mp read with ⟨value, valueRead, read⟩
        rcases bind_eq_ok.mp read with ⟨others, othersRead, read⟩
        obtain rfl := Except.ok.inj read
        obtain ⟨coefficient, places, e, isMantissa, isExponent, rfl, finite⟩ :=
          literal_of_readNumber longestRun.1 longestExponent.1 valueRead
        exact .number isMantissa isExponent longestRun longestExponent finite
          (ih rest.length shorter othersRead rfl)
    | @name c word rest letter longest =>
        have shorter := shorter_behind (List.cons_ne_nil c word) rest
        rw [lex_name letter longest] at read
        rcases bind_eq_ok.mp read with ⟨others, othersRead, read⟩
        obtain rfl := Except.ok.inj read
        exact .name letter longest (ih rest.length shorter othersRead rfl)
    | @symbol c token rest symbol =>
        rw [lex_symbol symbol] at read
        rcases bind_eq_ok.mp read with ⟨others, othersRead, read⟩
        obtain rfl := Except.ok.inj read
        exact .symbol symbol (ih rest.length (Nat.lt_succ_self _) othersRead rfl)
    | stranger stranger =>
        rw [lex_stranger stranger] at read
        cases read

theorem lex_of_splits {cs : List Char} {ts : List Token} (splits : Splits cs ts) (position : Nat) :
    ∃ lexemes, lex position cs = .ok lexemes ∧ lexemes.map Lexeme.token = ts := by
  induction splits generalizing position with
  | nil => exact ⟨[], by rw [lex], rfl⟩
  | blank blank _ ih =>
      rcases ih (position + 1) with ⟨lexemes, read, same⟩
      exact ⟨lexemes, by rw [lex, if_pos blank, read], same⟩
  | @number mantissa exponent rest _ _ _ _ isMantissa isExponent longestRun longestExponent finite
      _ ih =>
      rcases ih (position + (mantissa ++ exponent).length) with ⟨lexemes, read, same⟩
      have valueRead : readNumber position (mantissa ++ exponent) = .ok _ :=
        readNumber_eq_ok.mpr ⟨_, Literal.read_of_literal isMantissa isExponent, rfl, finite⟩
      refine ⟨⟨position, _⟩ :: lexemes, ?_, congrArg _ same⟩
      rw [lex_number (Literal.mantissa_nonempty isMantissa) longestRun longestExponent, valueRead,
        read]
      rfl
  | @name c word rest _ letter longest _ ih =>
      rcases ih (position + (c :: word).length) with ⟨lexemes, read, same⟩
      refine ⟨⟨position, _⟩ :: lexemes, ?_, congrArg _ same⟩
      rw [lex_name letter longest, read]
      rfl
  | @symbol c _ rest _ symbol _ ih =>
      rcases ih (position + 1) with ⟨lexemes, read, same⟩
      refine ⟨⟨position, _⟩ :: lexemes, ?_, congrArg _ same⟩
      rw [lex_symbol symbol, read]
      rfl

end FractalBreeder.Token
