import Mathlib.Data.List.Chain
import FractalBreeder.Proofs.Expr.Acceptance
import FractalBreeder.Proofs.Expr.Spelling

/-!
Blanks between tokens. In a text that is read no two numbers or names stand next to each other, so
that a token never joins the one behind it: blanks come and go, and the tokens stay.
-/
namespace FractalBreeder

namespace Token

open Literal (Mantissa Exponent IsExponent Longest Digits Marker)
open Decimal (isDigit)

/-! ### Tokens that would join -/

/-- Tokens of any number of characters; all others have one. -/
def isLong : Token → Bool
  | number _ | name _ => true
  | _ => false

/-- At most one of two tokens is long, so that they cannot be taken for one. -/
def Apart (t u : Token) : Prop := t.isLong = true → u.isLong = false

theorem isChain_around {ts us : List Token} {t : Token} (short : t.isLong = false)
    (before : ts.IsChain Apart) (behind : us.IsChain Apart) : (ts ++ t :: us).IsChain Apart := by
  refine before.append (behind.cons ?_) ?_
  · intro u _ long
    rw [short] at long
    cases long
  · intro s _ u head _
    obtain rfl := Option.some.inj head
    exact short

/-- Between two numbers or names the grammar always has a token of one character. -/
theorem isChain_of_derives {c : Grammar.Category} {ts : List Token} {e : Expr}
    (derived : Grammar.Derives c ts e) : ts.IsChain Apart := by
  induction derived with
  | sum_product _ ih | product_factor _ ih | factor_power _ ih | power_atom _ ih => exact ih
  | sum_step _ _ _ left right | product_step _ _ _ left right | power_step _ _ left right =>
    exact isChain_around rfl left right
  | factor_plus _ ih | factor_minus_const _ ih | factor_minus _ _ ih =>
    exact isChain_around rfl .nil ih
  | number | var => exact .singleton _
  | @group ts _ _ ih =>
    have opened : (opening :: ts).IsChain Apart := isChain_around rfl .nil ih
    exact isChain_around rfl opened .nil
  | @unary op ts _ _ ih =>
    have opened : (name op.name :: opening :: ts).IsChain Apart :=
      isChain_around rfl (.singleton _) ih
    exact isChain_around rfl opened .nil
  | @ternary op ts us _ _ _ _ _ _ _ first second third =>
    have opened : (name op.name :: opening :: ts).IsChain Apart :=
      isChain_around rfl (.singleton _) first
    have arguments : (name op.name :: opening :: ts ++ comma :: us).IsChain Apart :=
      isChain_around rfl opened second
    exact isChain_around rfl (isChain_around rfl arguments third) .nil

/-! ### Tokens as they are written -/

/-- The characters of one token. -/
inductive Written : List Char → Token → Prop where
  | number {mantissa exponent : List Char} {coefficient places : Nat} {e : Int} :
      Mantissa mantissa coefficient places → Exponent exponent e →
      (Literal.value coefficient places e).isFinite = true →
      Written (mantissa ++ exponent) (.number (Literal.value coefficient places e))
  | name {c : Char} {word : List Char} : isLetter c = true →
      (∀ d ∈ c :: word, isWordChar d = true) →
      Written (c :: word) (.name (String.ofList (c :: word)))
  | symbol {c : Char} {t : Token} : Symbol c t → Written [c] t

theorem Written.nonempty {cs : List Char} {t : Token} (written : Written cs t) : cs ≠ [] := by
  cases written with
  | number mantissa _ _ =>
    exact List.append_ne_nil_of_left_ne_nil (Literal.mantissa_nonempty mantissa) _
  | name _ _ | symbol _ => exact List.cons_ne_nil _ _

theorem digit_plain {c : Char} (digit : isDigit c = true) : isBlank c = false :=
  number_char_plain (by rw [isNumberChar, digit, Bool.true_or])

theorem exponent_plain {cs : List Char} {e : Int} (exponent : Exponent cs e) :
    ∀ c ∈ cs, isBlank c = false := by
  have marker_plain {c : Char} (marker : Marker c) : isBlank c = false := by
    rcases marker with rfl | rfl <;> rfl
  have digits_plain {digits : List Char} (all : Digits digits) : ∀ c ∈ digits, isBlank c = false :=
    fun c member => digit_plain (all c member)
  cases exponent with
  | absent => exact List.forall_mem_nil _
  | plain marker _ all =>
    exact List.forall_mem_cons.mpr ⟨marker_plain marker, digits_plain all⟩
  | plus marker _ all | minus marker _ all =>
    refine List.forall_mem_cons.mpr ⟨marker_plain marker, ?_⟩
    exact List.forall_mem_cons.mpr ⟨rfl, digits_plain all⟩

/-- No token has a blank in it. -/
theorem Written.plain {cs : List Char} {t : Token} (written : Written cs t) :
    ∀ c ∈ cs, isBlank c = false := by
  cases written with
  | number mantissa exponent _ =>
    refine List.forall_mem_append.mpr ⟨?_, exponent_plain exponent⟩
    exact fun c member => number_char_plain (Literal.numeric_mantissa mantissa c member)
  | name _ word =>
    intro c member
    rcases Bool.or_eq_true_iff.mp (word c member) with letter | digit
    · exact (letter_plain letter).1
    · exact digit_plain digit
  | symbol symbol =>
    intro c member
    obtain rfl := List.mem_singleton.mp member
    exact (ofChar_of_symbol symbol).2.1

/-- Tokens one after another with any blanks between them. -/
inductive Spaced : List Char → List Token → Prop where
  | nil : Spaced [] []
  | blank {c : Char} {rest : List Char} {ts : List Token} : isBlank c = true → Spaced rest ts →
      Spaced (c :: rest) ts
  | token {cs rest : List Char} {t : Token} {ts : List Token} : Written cs t → Spaced rest ts →
      Spaced (cs ++ rest) (t :: ts)

theorem Spaced.blanks {blanks rest : List Char} {ts : List Token}
    (all : ∀ c ∈ blanks, isBlank c = true) (spaced : Spaced rest ts) :
    Spaced (blanks ++ rest) ts := by
  induction blanks with
  | nil => exact spaced
  | cons c blanks ih =>
    obtain ⟨blank, others⟩ := List.forall_mem_cons.mp all
    exact .blank blank (ih others)

theorem Spaced.filter {cs : List Char} {ts : List Token} (spaced : Spaced cs ts) :
    Spaced (cs.filter (!isBlank ·)) ts := by
  induction spaced with
  | nil => exact .nil
  | blank blank _ ih => rwa [List.filter_cons_of_neg (by rw [blank]; decide)]
  | token written _ ih =>
    rw [List.filter_append, List.filter_eq_self.mpr]
    · exact .token written ih
    · intro c member
      rw [written.plain c member]
      rfl

/-! ### The longest token -/

theorem blank_bounds {c : Char} (blank : isBlank c = true) (rest : List Char) :
    Bounded (c :: rest) := by
  intro d head
  obtain rfl := Option.some.inj head
  rcases blank_cases blank with rfl | rfl | rfl | rfl | rfl <;> decide

theorem Spaced.bounded {cs : List Char} {ts : List Token} (spaced : Spaced cs ts)
    (short : ∀ t ∈ ts.head?, t.isLong = false) : Bounded cs := by
  cases spaced with
  | nil => exact fun c head => nomatch head
  | blank blank _ => exact blank_bounds blank _
  | token written _ =>
    cases written with
    | number | name => cases short _ rfl
    | symbol symbol => exact bounded_symbol symbol _

theorem digit_stops {rest : List Char} (bounded : Bounded rest) :
    ∀ c ∈ rest.head?, isDigit c = false :=
  fun c head => (Bool.or_eq_false_iff.mp (bounded c head).2).1

theorem exponentLength_of_bounded {exponent rest : List Char} {e : Int}
    (isExponent : Exponent exponent e) (bounded : Bounded rest) :
    exponentLength (exponent ++ rest) = exponent.length := by
  have run {digits : List Char} (all : Digits digits) :
      (digits ++ rest).takeWhile isDigit = digits :=
    (Literal.digits_takeWhile digits all (digit_stops bounded)).1
  cases isExponent with
  | absent => exact Literal.exponentLength_of_longest (longest_absent bounded)
  | @plain marker digits isMarker nonempty all =>
    have unsigned : ∀ c ∈ (digits ++ rest).head?, ¬ Literal.Sign c := by
      intro c head isSign
      obtain ⟨first, others, rfl⟩ := List.exists_cons_of_ne_nil nonempty
      obtain rfl := Option.some.inj head
      have plain := Literal.digit_not_sign (all first List.mem_cons_self)
      exact isSign.elim plain.1 plain.2
    rw [List.cons_append, Literal.exponentLength_plain isMarker unsigned, run all,
      if_neg nonempty, List.length_cons, Nat.add_comm]
  | @plus marker digits isMarker nonempty all =>
    rw [List.cons_append, List.cons_append, Literal.exponentLength_signed isMarker (.inl rfl),
      run all, if_neg nonempty, List.length_cons, List.length_cons]
    omega
  | @minus marker digits isMarker nonempty all =>
    rw [List.cons_append, List.cons_append, Literal.exponentLength_signed isMarker (.inr rfl),
      run all, if_neg nonempty, List.length_cons, List.length_cons]
    omega

theorem longest_exponent_of_bounded {exponent rest : List Char} {e : Int}
    (isExponent : Exponent exponent e) (bounded : Bounded rest) :
    Longest IsExponent exponent rest := by
  refine ⟨⟨e, isExponent⟩, ?_⟩
  rintro other ⟨value, isOther⟩ ⟨tail, whole⟩
  rw [← exponentLength_of_bounded isExponent bounded, ← whole]
  exact Literal.length_le_exponentLength isOther tail

theorem longest_mantissa_of_bounded {mantissa exponent rest : List Char}
    {coefficient places : Nat} {e : Int} (isMantissa : Mantissa mantissa coefficient places)
    (isExponent : Exponent exponent e) (bounded : Bounded rest) :
    Longest (fun cs => ∀ c ∈ cs, isNumberChar c = true) mantissa (exponent ++ rest) := by
  refine longest_of_bounded (Literal.numeric_mantissa isMantissa) fun c head => ?_
  cases exponent with
  | nil => exact (bounded c head).2
  | cons marker others =>
    obtain rfl := Option.some.inj head
    rcases Literal.exponent_head isExponent marker rfl with rfl | rfl <;> rfl

theorem longest_name_of_bounded {word rest : List Char}
    (all : ∀ c ∈ word, isWordChar c = true) (bounded : Bounded rest) :
    Longest (fun cs => ∀ c ∈ cs, isWordChar c = true) word rest := by
  refine longest_of_bounded all fun c head => ?_
  rw [isWordChar, (bounded c head).1, digit_stops bounded c head, Bool.or_self]

/-- Where no two tokens can join, they are read as they are written. -/
theorem Spaced.splits {cs : List Char} {ts : List Token} (spaced : Spaced cs ts)
    (apart : ts.IsChain Apart) : Splits cs ts := by
  induction spaced with
  | nil => exact .nil
  | blank blank _ ih => exact .blank blank (ih apart)
  | token written others ih =>
    obtain ⟨next, apart⟩ := List.isChain_cons.mp apart
    have splits := ih apart
    cases written with
    | number mantissa exponent finite =>
      have bounded := others.bounded fun u head => next u head rfl
      exact .number mantissa exponent (longest_mantissa_of_bounded mantissa exponent bounded)
        (longest_exponent_of_bounded exponent bounded) finite splits
    | name letter word =>
      have bounded := others.bounded fun u head => next u head rfl
      exact .name letter (longest_name_of_bounded word bounded) splits
    | symbol symbol => exact .symbol symbol splits

/-! ### Places -/

/-- The tokens of a text with the places where they begin. -/
inductive Located : Nat → List Char → List Lexeme → Prop where
  | nil (place : Nat) : Located place [] []
  | blank {place : Nat} {c : Char} {rest : List Char} {lexemes : List Lexeme} :
      isBlank c = true → Located (place + 1) rest lexemes → Located place (c :: rest) lexemes
  | token {place : Nat} {cs rest : List Char} {t : Token} {lexemes : List Lexeme} :
      Written cs t → Located (place + cs.length) rest lexemes →
      Located place (cs ++ rest) (⟨place, t⟩ :: lexemes)

theorem Splits.located {cs : List Char} {ts : List Token} (splits : Splits cs ts) {place : Nat}
    {lexemes : List Lexeme} (read : lex place cs = .ok lexemes) : Located place cs lexemes := by
  induction splits generalizing place lexemes with
  | nil =>
    rw [lex] at read
    cases read
    exact .nil place
  | blank blank _ ih =>
    rw [lex, if_pos blank] at read
    exact .blank blank (ih read)
  | number mantissa exponent longestRun longestExponent finite _ ih =>
    rw [lex_number (Literal.mantissa_nonempty mantissa) longestRun longestExponent] at read
    obtain ⟨value, valueRead, read⟩ := bind_eq_ok.mp read
    obtain ⟨others, othersRead, read⟩ := bind_eq_ok.mp read
    obtain ⟨d, decimalRead, rfl, -⟩ := readNumber_eq_ok.mp valueRead
    rw [Literal.read_of_literal mantissa exponent] at decimalRead
    cases decimalRead
    cases read
    exact .token (.number mantissa exponent finite) (ih othersRead)
  | name letter longest _ ih =>
    rw [lex_name letter longest] at read
    obtain ⟨others, othersRead, read⟩ := bind_eq_ok.mp read
    cases read
    exact .token (.name letter longest.1) (ih othersRead)
  | symbol symbol _ ih =>
    rw [lex_symbol symbol] at read
    obtain ⟨others, othersRead, read⟩ := bind_eq_ok.mp read
    cases read
    exact .token (.symbol symbol) (ih othersRead)

theorem Located.spaced {place : Nat} {cs : List Char} {lexemes : List Lexeme}
    (located : Located place cs lexemes) : Spaced cs (lexemes.map Lexeme.token) := by
  induction located with
  | nil => exact .nil
  | blank blank _ ih => exact .blank blank ih
  | token written _ ih => exact .token written ih

theorem Located.le {place : Nat} {cs : List Char} {lexemes : List Lexeme}
    (located : Located place cs lexemes) : ∀ i ∈ lexemes.map Lexeme.position, place ≤ i := by
  induction located with
  | nil => exact List.forall_mem_nil _
  | blank _ _ ih => exact fun i member => Nat.le_of_succ_le (ih i member)
  | token _ _ ih =>
    refine List.forall_mem_cons.mpr ⟨Nat.le_refl _, fun i member => ?_⟩
    exact Nat.le_trans (Nat.le_add_right _ _) (ih i member)

/-! ### More blanks -/

/-- The characters with `gap i` before the one at `i`, and behind the last one. -/
def padded (gap : Nat → List Char) : Nat → List Char → List Char
  | i, [] => gap i
  | i, c :: cs => gap i ++ c :: padded gap (i + 1) cs

variable {gap : Nat → List Char}

theorem padded_append {i : Nat} {cs : List Char} (rest : List Char)
    (closed : ∀ k, i ≤ k → k < i + cs.length → gap k = []) :
    padded gap i (cs ++ rest) = cs ++ padded gap (i + cs.length) rest := by
  induction cs generalizing i with
  | nil => rfl
  | cons c cs ih =>
    rw [List.length_cons] at closed ⊢
    rw [List.cons_append, padded, closed i (Nat.le_refl i) (by omega), List.nil_append,
      ih fun k past below => closed k (by omega) (by omega), Nat.add_right_comm, Nat.add_assoc]
    rfl

/-- Blanks that begin where a token begins or where the text ends stand between the tokens. -/
theorem Located.padded {place : Nat} {cs : List Char} {lexemes : List Lexeme}
    (located : Located place cs lexemes) (blank : ∀ i, ∀ c ∈ gap i, isBlank c = true)
    (placed : ∀ i, place ≤ i → gap i ≠ [] →
      i = place + cs.length ∨ i ∈ lexemes.map Lexeme.position) :
    Spaced (Token.padded gap place cs) (lexemes.map Lexeme.token) := by
  induction located with
  | nil place =>
    have spaced := Spaced.nil.blanks (blank place)
    rwa [List.append_nil] at spaced
  | @blank place c rest lexemes isBlank _ ih =>
    refine .blanks (blank place) (.blank isBlank (ih fun i past opened => ?_))
    rw [List.length_cons] at placed
    have at_ := placed i (by omega) opened
    rwa [Nat.add_right_comm, Nat.add_assoc]
  | @token place cs rest t lexemes written behind ih =>
    obtain ⟨c, others, rfl⟩ := List.exists_cons_of_ne_nil written.nonempty
    simp only [List.length_append, List.length_cons, List.map_cons, List.mem_cons] at placed
    have tail := ih fun i past opened => by
      simp only [List.length_cons] at past ⊢
      rcases placed i (by omega) opened with ended | begins | later
      · exact .inl (by omega)
      · omega
      · exact .inr later
    have closed : ∀ k, place + 1 ≤ k → k < place + 1 + others.length → gap k = [] := by
      intro k inside below
      by_contra opened
      rcases placed k (by omega) opened with ended | begins | later
      · omega
      · omega
      · have next := behind.le k later
        simp only [List.length_cons] at next
        omega
    refine Spaced.blanks (blank place) ?_
    change Spaced (c :: Token.padded gap (place + 1) (others ++ rest)) _
    rw [padded_append rest closed]
    rw [Nat.add_assoc, Nat.add_comm 1]
    exact .token written tail

end Token

namespace Expr

open Token (isBlank padded)

/-- The text without its blanks. -/
def unspaced (text : String) : String := .ofList (text.toList.filter (!isBlank ·))

/-- The text with `gap i` before its character at `i`, and behind its last one. -/
def respaced (gap : Nat → List Char) (text : String) : String :=
  .ofList (padded gap 0 text.toList)

/-- Nothing but blanks, and these where a token begins or the text ends. -/
structure Spacing (text : String) (gap : Nat → List Char) : Prop where
  blank : ∀ i, ∀ c ∈ gap i, isBlank c = true
  placed : ∀ i, gap i ≠ [] → i = text.toList.length ∨
    ∃ lexemes, Token.lex 0 text.toList = .ok lexemes ∧ i ∈ lexemes.map Lexeme.position

theorem located_of_parse {text : String} {e : Expr} (read : parse text = .ok e) :
    ∃ lexemes, Token.lex 0 text.toList = .ok lexemes ∧ Token.Located 0 text.toList lexemes ∧
      Grammar.Derives .sum (lexemes.map Lexeme.token) e := by
  obtain ⟨ts, splits, derived⟩ := derives_of_parse read
  obtain ⟨lexemes, lexed, rfl⟩ := Token.lex_of_splits splits 0
  exact ⟨lexemes, lexed, splits.located lexed, derived⟩

/-- What stands between the tokens says nothing, as long as it is blanks. -/
theorem parse_of_spaced {cs : List Char} {ts : List Token} {e : Expr}
    (derived : Grammar.Derives .sum ts e) (spaced : Token.Spaced cs ts) :
    parse (.ofList cs) = .ok e := by
  refine parse_of_derives ?_ derived
  rw [String.toList_ofList]
  exact spaced.splits (Token.isChain_of_derives derived)

/-- A text that is read gives the same tree without its blanks, and with more of them. -/
theorem parse_spacing {text : String} {e : Expr} (read : parse text = .ok e) :
    parse (unspaced text) = .ok e ∧
      ∀ gap, Spacing text gap → parse (respaced gap text) = .ok e := by
  obtain ⟨lexemes, lexed, located, derived⟩ := located_of_parse read
  refine ⟨parse_of_spaced derived located.spaced.filter, fun gap spacing => ?_⟩
  refine parse_of_spaced derived (located.padded spacing.blank fun i _ opened => ?_)
  rw [Nat.zero_add]
  refine (spacing.placed i opened).imp_right ?_
  rintro ⟨others, lexed', member⟩
  obtain rfl := Except.ok.inj (lexed.symm.trans lexed')
  exact member

/-- Blanks at three places: a tab, two of them and one. -/
def looser : Nat → List Char
  | 3 => ['\t']
  | 4 => ['\n', ' ']
  | 10 => [' ']
  | _ => []

theorem parse_spacing_difference :
    let e : Expr := .binary .sub (.var .x) (.const (.float 25))
    parse " x -2.5e1 " = .ok e ∧ parse "x-2.5e1" = .ok e ∧ parse " x \t-\n 2.5e1  " = .ok e := by
  intro e
  have read : parse " x -2.5e1 " = .ok e := by with_unfolding_all rfl
  have lexed : Token.lex 0 " x -2.5e1 ".toList =
      .ok [⟨1, .name "x"⟩, ⟨3, .operator .sub⟩, ⟨4, .number 25⟩] := by with_unfolding_all rfl
  have spacing : Spacing " x -2.5e1 " looser := by
    constructor
    · intro i
      simp only [looser]
      split <;> simp [isBlank]
    · intro i opened
      simp only [looser] at opened
      split at opened
      · exact .inr ⟨_, lexed, by simp⟩
      · exact .inr ⟨_, lexed, by simp⟩
      · exact .inl rfl
      · exact absurd rfl opened
  have unspacedText : unspaced " x -2.5e1 " = "x-2.5e1" := by decide
  have respacedText : respaced looser " x -2.5e1 " = " x \t-\n 2.5e1  " := by decide
  rw [← unspacedText, ← respacedText]
  exact ⟨read, (parse_spacing read).1, (parse_spacing read).2 looser spacing⟩

end Expr

end FractalBreeder
