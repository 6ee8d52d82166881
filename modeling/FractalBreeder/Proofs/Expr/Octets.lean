import FractalBreeder.Expr.Parser
import FractalBreeder.Proofs.Expr.Splitting

/-!
A text read over its bytes. Places are counted in bytes, every byte is looked at as a character of
its own, and numbers and names are cut out of the text between two places. The pieces found this way
are the tokens of the text, and no cut goes through a character.
-/
namespace FractalBreeder

/-- How reading over the bytes ends without a tree. Only the first is a fault of the text. -/
inductive Mishap where
  | fault (error : ParseError)
  /-- A cut where one of the two places is inside of a character or beyond the text. -/
  | brokenSlice (start stop : Nat)
  /-- Reported as "unknown operator". -/
  | unknownOperator (position : Nat) (symbol : Char)
  /-- Reported as a missing left operand, of a symbol that is no operator. -/
  | strangeOperator (position : Nat) (symbol : Char)
  /-- Reported as "function call without a function". -/
  | callWithoutFunction (position : Nat)
  deriving DecidableEq, Repr

/-- A token as it is cut out of the text: the operator of a symbol is looked up later. -/
inductive Piece where
  | number (value : Float)
  | name (text : String)
  | symbol (c : Char)
  | opening
  | closing
  | comma
  deriving Repr

namespace Piece

def ofToken : Token → Piece
  | .number value => number value
  | .name text => name text
  | .operator op => symbol op.symbol
  | .opening => opening
  | .closing => closing
  | .comma => comma

/-- The pieces of one byte. -/
def ofChar? (c : Char) : Option Piece :=
  match c with
  | '(' => some opening
  | ')' => some closing
  | ',' => some comma
  | '+' | '-' | '*' | '/' | '^' => some (symbol c)
  | _ => none

end Piece

/-- A piece and the place of its first byte. -/
def Lexeme.piece (l : Lexeme) : Nat × Piece := (l.position, .ofToken l.token)

namespace Pieces

open Token (isBlank isLetter isWordChar isNumberChar numberLength readNumber leadingByte Symbol
  Stranger)
open Decimal (isDigit)
open Literal (IsExponent Longest)

/-- The bytes of a text, each shown as a character of its own. -/
def octets (text : String) : List Char :=
  text.toByteArray.data.toList.map fun b => Char.ofNat b.toNat

/-- The part of a text between two places, which both have to stand between characters. -/
def slice (text : String) (start stop : Nat) : Except Mishap String :=
  if valid : start ≤ stop ∧ (String.Pos.Raw.mk start).IsValid text ∧
      (String.Pos.Raw.mk stop).IsValid text then
    .ok (text.extract (text.pos ⟨start⟩ valid.2.1) (text.pos ⟨stop⟩ valid.2.2))
  else .error (.brokenSlice start stop)

/-- The pieces of a text from a place on, where the given bytes are left. -/
def scan (text : String) (place : Nat) : List Char → Except Mishap (List (Nat × Piece))
  | [] => .ok []
  | c :: rest =>
    if isBlank c then scan text (place + 1) rest
    else if isNumberChar c then do
      let length := numberLength (c :: rest)
      let literal ← slice text place (place + length)
      let value ← (readNumber place literal.toList).mapError .fault
      let pieces ← scan text (place + length) (rest.drop (length - 1))
      pure ((place, .number value) :: pieces)
    else if isLetter c then do
      let length := ((c :: rest).takeWhile isWordChar).length
      let word ← slice text place (place + length)
      let pieces ← scan text (place + length) (rest.drop (length - 1))
      pure ((place, .name word) :: pieces)
    else
      match Piece.ofChar? c with
      | some piece => do
        let pieces ← scan text (place + 1) rest
        pure ((place, piece) :: pieces)
      | none => .error (.fault ⟨place, .unexpectedCharacter c⟩)
termination_by bytes => bytes.length
decreasing_by all_goals simp only [List.length_drop, List.length_cons]; omega

def ofText (text : String) : Except Mishap (List (Nat × Piece)) := scan text 0 (octets text)

/-! ### Faults as mishaps -/

theorem map_mapError {α β : Type} (change : α → β) {told : Except Mishap α}
    {result : Except ParseError α} (same : told = result.mapError .fault) :
    change <$> told = (change <$> result).mapError .fault := by
  subst same
  cases result <;> rfl

theorem mapError_eq_ok {α : Type} {result : Except ParseError α} {a : α}
    (equal : result.mapError Mishap.fault = .ok a) : result = .ok a := by
  cases result with
  | error _ => cases equal
  | ok _ => exact congrArg _ (Except.ok.inj equal)

theorem mapError_eq_error {α : Type} {result : Except ParseError α} {mishap : Mishap}
    (equal : result.mapError Mishap.fault = .error mishap) :
    ∃ error, result = .error error ∧ mishap = .fault error := by
  cases result with
  | error error => exact ⟨error, rfl, (Except.error.inj equal).symm⟩
  | ok _ => cases equal

/-! ### Cuts -/

theorem slice_append (front middle rest : String) :
    slice (front ++ middle ++ rest) front.utf8ByteSize
      (front.utf8ByteSize + middle.utf8ByteSize) = .ok middle := by
  have start : (String.Pos.Raw.mk front.utf8ByteSize).IsValid (front ++ middle ++ rest) :=
    String.Pos.Raw.isValid_iff_exists_append.mpr
      ⟨front, middle ++ rest, String.append_assoc .., rfl⟩
  have stop : (String.Pos.Raw.mk (front.utf8ByteSize + middle.utf8ByteSize)).IsValid
      (front ++ middle ++ rest) :=
    String.Pos.Raw.isValid_iff_exists_append.mpr
      ⟨front ++ middle, rest, rfl, String.Pos.Raw.ext String.utf8ByteSize_append.symm⟩
  have before : (front ++ middle ++ rest).toByteArray =
      front.toByteArray ++ (middle.toByteArray ++ rest.toByteArray) := by
    rw [String.toByteArray_append, String.toByteArray_append, ByteArray.append_assoc]
  rw [slice, dif_pos ⟨Nat.le_add_right _ _, start, stop⟩, Except.ok.injEq,
    ← String.toByteArray_inj, String.toByteArray_extract, String.offset_pos, String.offset_pos,
    before, ← String.size_toByteArray, ← String.size_toByteArray]
  have cut := ByteArray.extract_append_size_add (a := front.toByteArray)
    (b := middle.toByteArray ++ rest.toByteArray) (i := 0) (j := middle.toByteArray.size)
  rw [Nat.add_zero] at cut
  rw [cut, ByteArray.extract_append_eq_left rfl]

example : slice "aé" 1 3 = .ok "é" ∧ slice "aé" 1 2 = .error (.brokenSlice 1 2) := by
  decide +kernel

/-! ### Characters of one byte -/

/-- A character of one byte. -/
def Narrow (c : Char) : Prop := c.toNat < 0x80

instance : DecidablePred Narrow := fun c => inferInstanceAs (Decidable (c.toNat < 0x80))

/-- The bytes of a character. -/
def shown (c : Char) : List Char := (String.utf8EncodeChar c).map fun b => Char.ofNat b.toNat

theorem octets_ofList (cs : List Char) : octets (.ofList cs) = cs.flatMap shown := by
  rw [octets, String.toByteArray_ofList, List.utf8Encode, List.toList_data_toByteArray,
    List.map_flatMap]
  rfl

theorem ofNat_ofNat {n : Nat} (small : n < 0x100) :
    Char.ofNat (UInt8.ofNat n).toNat = Char.ofNat n := by
  rw [UInt8.toNat_ofNat_of_lt' small]

theorem shown_narrow {c : Char} (narrow : Narrow c) : shown c = [c] := by
  have low : c.val.toNat ≤ 0x7f := Nat.le_of_lt_succ narrow
  have byte : Char.ofNat (UInt8.ofNat c.val.toNat).toNat = c :=
    (ofNat_ofNat (by omega)).trans (Char.ofNat_toNat c)
  simp only [shown, String.utf8EncodeChar, low, ↓reduceIte, List.map_cons, byte, List.map_nil]

theorem leadingByte_narrow {c : Char} (narrow : Narrow c) : leadingByte c = c := by
  have low : c.toNat < 0x80 := narrow
  simp only [leadingByte, low, ↓reduceIte]

theorem wide_ofNat {n : Nat} (low : 0x80 ≤ n) (high : n < 0x100) : ¬ Narrow (Char.ofNat n) := by
  have same : (Char.ofNat n).toNat = n := by
    rw [Char.ofNat, dif_pos (.inl (by omega))]
    rfl
  rw [Narrow, same]
  omega

theorem shown_starts {c : Char} {n : Nat} (low : 0x80 ≤ n) (high : n < 0x100)
    (encoded : ∃ bytes, String.utf8EncodeChar c = UInt8.ofNat n :: bytes)
    (leading : leadingByte c = Char.ofNat n) :
    ¬ Narrow (leadingByte c) ∧ ∃ more, shown c = leadingByte c :: more := by
  obtain ⟨bytes, encoded⟩ := encoded
  refine ⟨leading ▸ wide_ofNat low high, bytes.map fun b => Char.ofNat b.toNat, ?_⟩
  rw [shown, encoded, List.map_cons, ofNat_ofNat high, leading]

/-- A longer character begins with a byte that is no character of one byte. -/
theorem shown_wide {c : Char} (wide : ¬ Narrow c) :
    ¬ Narrow (leadingByte c) ∧ ∃ more, shown c = leadingByte c :: more := by
  have largest : c.val.toNat < 0x110000 := by
    rcases c.valid with first | ⟨_, second⟩
    · exact Nat.lt_trans first (by decide)
    · exact second
  have one : ¬ c.val.toNat < 0x80 := wide
  by_cases two : c.val.toNat < 0x800
  · refine shown_starts (n := c.val.toNat / 64 % 0x20 + 0xc0) (by omega) (by omega) ?_ ?_
    · rw [String.utf8EncodeChar, if_neg (by omega), if_pos (by omega)]
      exact ⟨_, rfl⟩
    · have field : c.val.toNat / 64 % 0x20 + 0xc0 = 0xC0 + c.toNat >>> 6 := by
        rw [Nat.shiftRight_eq_div_pow, Char.toNat]
        omega
      rw [field, leadingByte, Char.toNat, if_neg one, if_pos two]
  by_cases three : c.val.toNat < 0x10000
  · refine shown_starts (n := c.val.toNat / 4096 % 0x10 + 0xe0) (by omega) (by omega) ?_ ?_
    · rw [String.utf8EncodeChar, if_neg (by omega), if_neg (by omega), if_pos (by omega)]
      exact ⟨_, rfl⟩
    · have field : c.val.toNat / 4096 % 0x10 + 0xe0 = 0xE0 + c.toNat >>> 12 := by
        rw [Nat.shiftRight_eq_div_pow, Char.toNat]
        omega
      rw [field, leadingByte, Char.toNat, if_neg one, if_neg two, if_pos three]
  · refine shown_starts (n := c.val.toNat / 262144 % 0x08 + 0xf0) (by omega) (by omega) ?_ ?_
    · rw [String.utf8EncodeChar, if_neg (by omega), if_neg (by omega), if_neg (by omega)]
      exact ⟨_, rfl⟩
    · have field : c.val.toNat / 262144 % 0x08 + 0xf0 = 0xF0 + c.toNat >>> 18 := by
        rw [Nat.shiftRight_eq_div_pow, Char.toNat]
        omega
      rw [field, leadingByte, Char.toNat, if_neg one, if_neg two, if_neg three]

theorem flatMap_narrow {cs : List Char} (narrow : ∀ c ∈ cs, Narrow c) : cs.flatMap shown = cs := by
  induction cs with
  | nil => rfl
  | cons c cs ih =>
    obtain ⟨first, others⟩ := List.forall_mem_cons.mp narrow
    rw [List.flatMap_cons, shown_narrow first, ih others, List.singleton_append]

/-- Bytes that are characters of their own are characters of the text. -/
theorem prefix_of_narrow {front cs : List Char} (narrow : ∀ c ∈ front, Narrow c)
    (starts : front <+: cs.flatMap shown) : front <+: cs := by
  induction front generalizing cs with
  | nil => exact List.nil_prefix
  | cons c front ih =>
    obtain ⟨first, others⟩ := List.forall_mem_cons.mp narrow
    cases cs with
    | nil => cases List.prefix_nil.mp starts
    | cons d ds =>
      rw [List.flatMap_cons] at starts
      by_cases short : Narrow d
      · rw [shown_narrow short, List.singleton_append, List.cons_prefix_cons] at starts
        obtain ⟨rfl, starts⟩ := starts
        exact List.cons_prefix_cons.mpr ⟨rfl, ih others starts⟩
      · obtain ⟨wide, more, bytes⟩ := shown_wide short
        rw [bytes, List.cons_append, List.cons_prefix_cons] at starts
        exact absurd (starts.1 ▸ first) wide

theorem longest_shown {P : List Char → Prop} {front rest : List Char}
    (narrow : ∀ cs, P cs → ∀ c ∈ cs, Narrow c) (longest : Longest P front rest) :
    Longest P front (rest.flatMap shown) := by
  refine ⟨longest.1, fun other holds starts => longest.2 other holds ?_⟩
  have whole : front ++ rest.flatMap shown = (front ++ rest).flatMap shown := by
    rw [List.flatMap_append, flatMap_narrow (narrow front longest.1)]
  exact prefix_of_narrow (narrow other holds) (whole ▸ starts)

/-! ### Every character of a token takes one byte -/

theorem narrow_of_le {c d : Char} (below : c ≤ d) (narrow : Narrow d) : Narrow c :=
  Nat.lt_of_le_of_lt below narrow

theorem narrow_digit {c : Char} (digit : isDigit c = true) : Narrow c := by
  simp only [isDigit, Bool.and_eq_true, decide_eq_true_eq] at digit
  exact narrow_of_le digit.2 (by decide)

theorem narrow_number {c : Char} (numeric : isNumberChar c = true) : Narrow c := by
  rcases Bool.or_eq_true_iff.mp numeric with digit | point
  · exact narrow_digit digit
  · obtain rfl := beq_iff_eq.mp point
    decide

theorem narrow_letter {c : Char} (letter : isLetter c = true) : Narrow c := by
  simp only [isLetter, Bool.or_eq_true, Bool.and_eq_true, decide_eq_true_eq] at letter
  rcases letter with small | capital
  · exact narrow_of_le small.2 (by decide)
  · exact narrow_of_le capital.2 (by decide)

theorem narrow_word {c : Char} (word : isWordChar c = true) : Narrow c :=
  (Bool.or_eq_true_iff.mp word).elim narrow_letter narrow_digit

theorem narrow_blank {c : Char} (blank : isBlank c = true) : Narrow c := by
  rcases Token.blank_cases blank with rfl | rfl | rfl | rfl | rfl <;> decide

theorem narrow_symbol {c : Char} {token : Token} (symbol : Symbol c token) : Narrow c := by
  cases symbol with
  | opening | closing | comma => decide
  | operator op => cases op <;> decide

theorem narrow_exponent {cs : List Char} (exponent : IsExponent cs) : ∀ c ∈ cs, Narrow c := by
  have narrow_marker {c : Char} (marker : Literal.Marker c) : Narrow c := by
    rcases marker with rfl | rfl <;> decide
  have narrow_digits {digits : List Char} (all : Literal.Digits digits) :
      ∀ c ∈ digits, Narrow c := fun c member => narrow_digit (all c member)
  obtain ⟨e, exponent⟩ := exponent
  cases exponent with
  | absent => exact List.forall_mem_nil _
  | plain marker _ all => exact List.forall_mem_cons.mpr ⟨narrow_marker marker, narrow_digits all⟩
  | plus marker _ all | minus marker _ all =>
    refine List.forall_mem_cons.mpr ⟨narrow_marker marker, ?_⟩
    exact List.forall_mem_cons.mpr ⟨by decide, narrow_digits all⟩

theorem stranger_of_wide {c : Char} (wide : ¬ Narrow c) : Stranger c := by
  refine ⟨?_, ?_, ?_, ?_⟩
  · exact Bool.eq_false_iff.mpr fun blank => wide (narrow_blank blank)
  · exact Bool.eq_false_iff.mpr fun numeric => wide (narrow_number numeric)
  · exact Bool.eq_false_iff.mpr fun letter => wide (narrow_letter letter)
  · refine Option.eq_none_iff_forall_not_mem.mpr fun token found => wide ?_
    exact narrow_symbol (Token.symbol_of_ofChar found)

/-- Neither a character nor its first byte begins a token. -/
theorem stranger_shown {c : Char} (stranger : Stranger c) :
    Stranger (leadingByte c) ∧ ∃ more, shown c = leadingByte c :: more := by
  by_cases narrow : Narrow c
  · rw [leadingByte_narrow narrow]
    exact ⟨stranger, [], shown_narrow narrow⟩
  · obtain ⟨wide, bytes⟩ := shown_wide narrow
    exact ⟨stranger_of_wide wide, bytes⟩

/-! ### The pieces of a text are its tokens -/

theorem piece_ofChar (c : Char) : Piece.ofChar? c = (Token.ofChar? c).map .ofToken := by
  cases found : Token.ofChar? c with
  | some token =>
    cases Token.symbol_of_ofChar found with
    | opening | closing | comma => rfl
    | operator op => cases op <;> rfl
  | none =>
    unfold Piece.ofChar?
    split <;> first | rfl | cases found

variable {text : String} {place : Nat}

theorem scan_blank {c : Char} (blank : isBlank c = true) (bytes : List Char) :
    scan text place (c :: bytes) = scan text (place + 1) bytes := by
  rw [scan, if_pos blank]

theorem scan_number {run exponent bytes : List Char} (nonempty : run ≠ [])
    (longestRun : Longest (fun cs => ∀ c ∈ cs, isNumberChar c = true) run (exponent ++ bytes))
    (longestExponent : Longest IsExponent exponent bytes) :
    scan text place (run ++ exponent ++ bytes) = (do
      let literal ← slice text place (place + (run ++ exponent).length)
      let value ← (readNumber place literal.toList).mapError .fault
      let pieces ← scan text (place + (run ++ exponent).length) bytes
      pure ((place, .number value) :: pieces)) := by
  have measured := Literal.numberLength_of_longest longestRun longestExponent
  obtain ⟨c, tail, rfl⟩ := List.exists_cons_of_ne_nil nonempty
  have isNumber := longestRun.1 c List.mem_cons_self
  have dropped : (tail ++ exponent ++ bytes).drop ((c :: (tail ++ exponent)).length - 1) =
      bytes := List.drop_left' rfl
  simp only [List.cons_append] at measured ⊢
  rw [scan]
  simp only [Token.number_char_plain isNumber, isNumber, Bool.false_eq_true, ↓reduceIte, measured,
    dropped]

theorem scan_name {c : Char} {word bytes : List Char} (letter : isLetter c = true)
    (longest : Longest (fun cs => ∀ c ∈ cs, isWordChar c = true) (c :: word) bytes) :
    scan text place (c :: word ++ bytes) = (do
      let name ← slice text place (place + (c :: word).length)
      let pieces ← scan text (place + (c :: word).length) bytes
      pure ((place, .name name) :: pieces)) := by
  have taken := Literal.takeWhile_of_longest longest
  obtain ⟨notBlank, notNumber⟩ := Token.letter_plain letter
  have dropped : (word ++ bytes).drop ((c :: word).length - 1) = bytes := List.drop_left
  simp only [List.cons_append] at taken ⊢
  rw [scan]
  simp only [notBlank, notNumber, letter, Bool.false_eq_true, ↓reduceIte, taken, dropped]

theorem scan_symbol {c : Char} {token : Token} (symbol : Symbol c token) (bytes : List Char) :
    scan text place (c :: bytes) = (do
      let pieces ← scan text (place + 1) bytes
      pure ((place, .ofToken token) :: pieces)) := by
  obtain ⟨found, notBlank, notNumber, notLetter⟩ := Token.ofChar_of_symbol symbol
  rw [scan]
  simp only [notBlank, notNumber, notLetter, Bool.false_eq_true, ↓reduceIte, piece_ofChar, found,
    Option.map_some]

theorem scan_stranger {c : Char} (stranger : Stranger c) (bytes : List Char) :
    scan text place (c :: bytes) = .error (.fault ⟨place, .unexpectedCharacter c⟩) := by
  obtain ⟨notBlank, notNumber, notLetter, notFound⟩ := stranger
  rw [scan]
  simp only [notBlank, notNumber, notLetter, Bool.false_eq_true, ↓reduceIte, piece_ofChar, notFound,
    Option.map_none]

theorem length_octets (text : String) : (octets text).length = text.utf8ByteSize := by
  rw [octets, List.length_map, Array.length_toList, ByteArray.size_data, String.size_toByteArray]

theorem size_narrow {cs : List Char} (narrow : ∀ c ∈ cs, Narrow c) :
    (String.ofList cs).utf8ByteSize = cs.length := by
  rw [← length_octets, octets_ofList, flatMap_narrow narrow]

theorem size_append_narrow (front : List Char) {middle : List Char}
    (narrow : ∀ c ∈ middle, Narrow c) :
    (String.ofList (front ++ middle)).utf8ByteSize =
      (String.ofList front).utf8ByteSize + middle.length := by
  rw [String.ofList_append, String.utf8ByteSize_append, size_narrow narrow]

/-- A cut of characters of one byte each. -/
theorem slice_narrow (front rest : List Char) {middle : List Char}
    (narrow : ∀ c ∈ middle, Narrow c) :
    slice (.ofList (front ++ (middle ++ rest))) (String.ofList front).utf8ByteSize
      ((String.ofList front).utf8ByteSize + middle.length) = .ok (.ofList middle) := by
  rw [← size_narrow narrow, ← List.append_assoc, String.ofList_append, String.ofList_append]
  exact slice_append _ _ _

/-- What the characters of a text are read to, told of its bytes. -/
def told (result : Except ParseError (List Lexeme)) : Except Mishap (List (Nat × Piece)) :=
  (List.map Lexeme.piece <$> result).mapError .fault

theorem told_cons (place : Nat) (token : Token) (result : Except ParseError (List Lexeme)) :
    (do
      let pieces ← told result
      pure ((place, .ofToken token) :: pieces)) =
    told (do
      let lexemes ← result
      pure (⟨place, token⟩ :: lexemes)) := by
  cases result <;> rfl

/-- The bytes behind any characters are read as the characters are. -/
theorem scan_eq (front cs : List Char) :
    scan (.ofList (front ++ cs)) (String.ofList front).utf8ByteSize (cs.flatMap shown) =
      told (Token.lex (String.ofList front).utf8ByteSize cs) := by
  induction size : cs.length using Nat.strong_induction_on generalizing front cs with
  | _ size ih =>
    subst size
    -- behind characters of one byte each, the bytes that are left belong to the rest
    have behind {middle rest : List Char} (narrow : ∀ c ∈ middle, Narrow c)
        (shorter : rest.length < cs.length) :
        scan (.ofList (front ++ (middle ++ rest)))
          ((String.ofList front).utf8ByteSize + middle.length) (rest.flatMap shown) =
        told (Token.lex ((String.ofList front).utf8ByteSize + middle.length) rest) := by
      have read := ih rest.length shorter (front ++ middle) rest rfl
      rwa [size_append_narrow front narrow, List.append_assoc] at read
    cases Token.opens cs with
    | nil =>
      rw [List.flatMap_nil, scan, Token.lex]
      rfl
    | @blank c rest blank =>
      have narrow : ∀ d ∈ [c], Narrow d := List.forall_mem_singleton.mpr (narrow_blank blank)
      rw [List.flatMap_cons, shown_narrow (narrow_blank blank), List.singleton_append,
        scan_blank blank, Token.lex, if_pos blank]
      exact behind narrow (Nat.lt_succ_self _)
    | @number run exponent rest nonempty longestRun longestExponent =>
      have narrow : ∀ c ∈ run ++ exponent, Narrow c := List.forall_mem_append.mpr
        ⟨fun c member => narrow_number (longestRun.1 c member), narrow_exponent longestExponent.1⟩
      have shorter :=
        Token.shorter_behind (List.append_ne_nil_of_left_ne_nil nonempty exponent) rest
      have bytes : (exponent ++ rest).flatMap shown = exponent ++ rest.flatMap shown := by
        rw [List.flatMap_append, flatMap_narrow (narrow_exponent longestExponent.1)]
      have longestRun' := longest_shown (fun _ all c member => narrow_number (all c member))
        longestRun
      rw [bytes] at longestRun'
      have longestExponent' := longest_shown (fun _ => narrow_exponent) longestExponent
      rw [List.flatMap_append, flatMap_narrow narrow, scan_number nonempty longestRun'
        longestExponent', Token.lex_number nonempty longestRun longestExponent,
        slice_narrow front rest narrow, behind narrow shorter]
      simp only [bind, Except.bind, String.toList_ofList]
      cases readNumber (String.ofList front).utf8ByteSize (run ++ exponent) with
      | error fault => rfl
      | ok value => exact told_cons _ (.number value) _
    | @name c word rest letter longest =>
      have narrow : ∀ d ∈ c :: word, Narrow d := fun d member => narrow_word (longest.1 d member)
      have shorter := Token.shorter_behind (List.cons_ne_nil c word) rest
      have longest' := longest_shown (fun _ all d member => narrow_word (all d member)) longest
      rw [List.flatMap_append, flatMap_narrow narrow, scan_name letter longest',
        Token.lex_name letter longest, slice_narrow front rest narrow, behind narrow shorter]
      exact told_cons _ (.name (.ofList (c :: word))) _
    | @symbol c token rest symbol =>
      have narrow : ∀ d ∈ [c], Narrow d := List.forall_mem_singleton.mpr (narrow_symbol symbol)
      have read := behind narrow (Nat.lt_succ_self rest.length)
      rw [List.flatMap_cons, shown_narrow (narrow_symbol symbol), List.singleton_append,
        scan_symbol symbol, Token.lex_symbol symbol]
      rw [List.singleton_append, List.length_singleton] at read
      rw [read]
      exact told_cons _ token _
    | @stranger c rest stranger =>
      obtain ⟨first, more, bytes⟩ := stranger_shown stranger
      rw [List.flatMap_cons, bytes, List.cons_append, scan_stranger first,
        Token.lex_stranger stranger]
      rfl

/-- The pieces of a text are its tokens, and no cut goes through a character. -/
theorem ofText_eq (text : String) : ofText text = told (Token.lex 0 text.toList) := by
  have read := scan_eq [] text.toList
  rwa [List.nil_append, ← octets_ofList, String.ofList_toList] at read

end Pieces

end FractalBreeder
