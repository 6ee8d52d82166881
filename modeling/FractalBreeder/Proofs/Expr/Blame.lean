import FractalBreeder.Proofs.Expr.Blanks
import FractalBreeder.Proofs.Expr.Frames

/-!
What a fault points to. A text that is not read is at fault at its end, at the first byte of one of
its tokens, at a number that is none or at a character that no token begins with; a text without
tokens is at fault at its start.
-/
namespace FractalBreeder

namespace Token

open Literal (Mantissa Exponent IsExponent Longest)
open Pieces (Narrow)

/-! ### Places between tokens -/

theorem Written.narrow {cs : List Char} {t : Token} (written : Written cs t) :
    ∀ c ∈ cs, Narrow c := by
  cases written with
  | number mantissa exponent _ =>
    refine List.forall_mem_append.mpr ⟨fun c member => ?_, Pieces.narrow_exponent ⟨_, exponent⟩⟩
    exact Pieces.narrow_number (Literal.numeric_mantissa mantissa c member)
  | name _ word => exact fun c member => Pieces.narrow_word (word c member)
  | symbol symbol => exact List.forall_mem_singleton.mpr (Pieces.narrow_symbol symbol)

/-- Behind whole tokens and blanks, `rest` begins at the byte `i` of characters that begin at
`place`. -/
def Behind (place : Nat) (cs : List Char) (i : Nat) (rest : List Char) : Prop :=
  ∃ front ts, cs = front ++ rest ∧ Spaced front ts ∧
    i = place + (String.ofList front).utf8ByteSize

variable {place i : Nat} {cs rest : List Char}

theorem Behind.here (place : Nat) (cs : List Char) : Behind place cs place cs :=
  ⟨[], [], rfl, .nil, rfl⟩

theorem Behind.narrow {front : List Char} (narrow : ∀ c ∈ front, Narrow c)
    (spaced : ∀ others ts, Spaced others ts → ∃ us, Spaced (front ++ others) us)
    (behind : Behind (place + front.length) cs i rest) : Behind place (front ++ cs) i rest := by
  obtain ⟨others, ts, rfl, inner, rfl⟩ := behind
  obtain ⟨us, outer⟩ := spaced others ts inner
  refine ⟨front ++ others, us, (List.append_assoc ..).symm, outer, ?_⟩
  rw [String.ofList_append, String.utf8ByteSize_append, Pieces.size_narrow narrow, Nat.add_assoc]

theorem Behind.blank {c : Char} (blank : isBlank c = true) (behind : Behind (place + 1) cs i rest) :
    Behind place (c :: cs) i rest :=
  have narrow : ∀ d ∈ [c], Narrow d := List.forall_mem_singleton.mpr (Pieces.narrow_blank blank)
  .narrow narrow (fun _ ts spaced => ⟨ts, .blank blank spaced⟩) behind

theorem Behind.token {word : List Char} {t : Token} (written : Written word t)
    (behind : Behind (place + word.length) cs i rest) : Behind place (word ++ cs) i rest :=
  .narrow written.narrow (fun _ ts spaced => ⟨t :: ts, .token written spaced⟩) behind

/-- Every token begins behind whole tokens and blanks. -/
theorem Located.behind {lexemes : List Lexeme} (located : Located place cs lexemes) {l : Lexeme}
    (member : l ∈ lexemes) :
    ∃ word rest, Behind place cs l.position (word ++ rest) ∧ Written word l.token := by
  induction located with
  | nil => cases member
  | blank blank _ ih =>
    obtain ⟨word, rest, behind, written⟩ := ih member
    exact ⟨word, rest, behind.blank blank, written⟩
  | @token place cs rest t _ written _ ih =>
    rcases List.mem_cons.mp member with rfl | later
    · exact ⟨cs, rest, .here place _, written⟩
    · obtain ⟨word, rest, behind, inner⟩ := ih later
      exact ⟨word, rest, behind.token written, inner⟩

theorem Behind.isValid {text : String} (behind : Behind 0 text.toList i rest) :
    (String.Pos.Raw.mk i).IsValid text := by
  obtain ⟨front, _, whole, -, rfl⟩ := behind
  refine String.Pos.Raw.isValid_iff_exists_append.mpr ⟨.ofList front, .ofList rest, ?_, ?_⟩
  · rw [← String.ofList_append, ← whole, String.ofList_toList]
  · exact String.Pos.Raw.ext (Nat.zero_add _)

/-! ### Characters that are at fault -/

/-- No token can be made of the characters in front: they are like a number and are none, or are a
number without a finite value, or no token begins like that. -/
inductive Flaw : List Char → ParseFault → Prop where
  | malformed {run exponent rest : List Char} : run ≠ [] →
      Longest (fun cs => ∀ c ∈ cs, isNumberChar c = true) run (exponent ++ rest) →
      Longest IsExponent exponent rest →
      (∀ coefficient places, ¬ Mantissa run coefficient places) →
      Flaw (run ++ exponent ++ rest) (.invalidNumber (.ofList (run ++ exponent)))
  | infinite {run exponent rest : List Char} {coefficient places : Nat} {e : Int} :
      Longest (fun cs => ∀ c ∈ cs, isNumberChar c = true) run (exponent ++ rest) →
      Longest IsExponent exponent rest → Mantissa run coefficient places → Exponent exponent e →
      (Literal.value coefficient places e).isFinite = false →
      Flaw (run ++ exponent ++ rest) (.numberOutOfRange (.ofList (run ++ exponent)))
  | stranger {c : Char} {rest : List Char} : Stranger c →
      Flaw (c :: rest) (.unexpectedCharacter (leadingByte c))

theorem flaw_of_readNumber {run exponent rest : List Char} {error : ParseError}
    (nonempty : run ≠ [])
    (longestRun : Longest (fun cs => ∀ c ∈ cs, isNumberChar c = true) run (exponent ++ rest))
    (longestExponent : Longest IsExponent exponent rest)
    (read : readNumber place (run ++ exponent) = .error error) :
    error.position = place ∧ Flaw (run ++ exponent ++ rest) error.fault := by
  obtain ⟨e, isExponent⟩ := longestExponent.1
  unfold readNumber at read
  split at read
  · next unread =>
    cases read
    have noMantissa : ∀ coefficient places, ¬ Mantissa run coefficient places := by
      intro coefficient places mantissa
      rw [Literal.read_of_literal mantissa isExponent] at unread
      cases unread
    exact ⟨rfl, .malformed nonempty longestRun longestExponent noMantissa⟩
  · next d decimalRead =>
    obtain ⟨coefficient, places, mantissa, rfl⟩ :=
      Literal.literal_of_read longestRun.1 isExponent decimalRead
    simp only at read
    split at read
    · cases read
    · next unbounded =>
      cases read
      exact ⟨rfl, .infinite longestRun longestExponent mantissa isExponent
        (Bool.eq_false_iff.mpr unbounded)⟩

/-- Where splitting into tokens ends, there is a flaw behind whole tokens. -/
theorem flaw_of_lex {error : ParseError} (read : lex place cs = .error error) :
    ∃ rest, Behind place cs error.position rest ∧ Flaw rest error.fault := by
  induction size : cs.length using Nat.strong_induction_on generalizing place cs with
  | _ size ih =>
    subst size
    cases opens cs with
    | nil =>
      rw [lex] at read
      cases read
    | @blank c rest blank =>
      rw [lex, if_pos blank] at read
      obtain ⟨tail, behind, flaw⟩ := ih rest.length (Nat.lt_succ_self _) read rfl
      exact ⟨tail, behind.blank blank, flaw⟩
    | @number run exponent rest nonempty longestRun longestExponent =>
      have shorter := shorter_behind (List.append_ne_nil_of_left_ne_nil nonempty exponent) rest
      rw [lex_number nonempty longestRun longestExponent] at read
      rcases bind_eq_error.mp read with unread | ⟨value, valueRead, read⟩
      · obtain ⟨rfl, flaw⟩ := flaw_of_readNumber nonempty longestRun longestExponent unread
        exact ⟨_, .here _ _, flaw⟩
      rcases bind_eq_error.mp read with unread | ⟨_, _, read⟩
      · obtain ⟨coefficient, places, e, mantissa, isExponent, rfl, finite⟩ :=
          literal_of_readNumber longestRun.1 longestExponent.1 valueRead
        obtain ⟨tail, behind, flaw⟩ := ih rest.length shorter unread rfl
        exact ⟨tail, behind.token (.number mantissa isExponent finite), flaw⟩
      · cases read
    | @name c word rest letter longest =>
      have shorter := shorter_behind (List.cons_ne_nil c word) rest
      rw [lex_name letter longest] at read
      rcases bind_eq_error.mp read with unread | ⟨_, _, read⟩
      · obtain ⟨tail, behind, flaw⟩ := ih rest.length shorter unread rfl
        exact ⟨tail, behind.token (.name letter longest.1), flaw⟩
      · cases read
    | @symbol c token rest symbol =>
      rw [lex_symbol symbol] at read
      rcases bind_eq_error.mp read with unread | ⟨_, _, read⟩
      · obtain ⟨tail, behind, flaw⟩ := ih rest.length (Nat.lt_succ_self _) unread rfl
        exact ⟨tail, behind.token (.symbol symbol), flaw⟩
      · cases read
    | stranger stranger =>
      rw [lex_stranger stranger] at read
      cases read
      exact ⟨_, .here _ _, .stranger stranger⟩

end Token

namespace Postfix

/-! ### Tokens that are at fault -/

/-- The tokens that a fault of the order of tokens is about. -/
inductive Blames : ParseFault → Token → Prop where
  | number (x : Float) : Blames .expectedOperator (.number x)
  | name (name : String) : Blames .expectedOperator (.name name)
  | opening : Blames .expectedOperator .opening
  | unknownName {name : String} : Variable.ofName? name = none → Function.ofName? name = none →
      Blames (.unknownName name) (.name name)
  | expectedOpening (f : Function) : Blames (.expectedOpening f) (.name f.name)
  | missingLeftOperand {op : Binary} : op ≠ .add → op ≠ .sub →
      Blames (.missingLeftOperand op) (.operator op)
  | emptyArgument : Blames .emptyArgument .comma
  | strayComma : Blames .strayComma .comma
  | missingOperandBeforeClosing : Blames .missingOperandBeforeClosing .closing
  | unbalancedClosing : Blames .unbalancedClosing .closing
  | wrongArgumentCount {f : Function} {given : Nat} : given ≠ f.arity →
      Blames (.wrongArgumentCount f given) .opening

/-- The places of the parentheses of calls that are still open. -/
def opened (pending : List Pending) : List Nat :=
  pending.filterMap fun
    | .call _ position _ => some position
    | _ => none

/-- A fault of a text of the given length points to its end, to one of the tokens, or to a
parenthesis that was open before them. -/
inductive Points (length : Nat) (earlier : List Nat) (lexemes : List Lexeme) :
    ParseError → Prop where
  | ending {fault : ParseFault} : fault = .unexpectedEnd ∨ fault = .unbalancedOpening →
      Points length earlier lexemes ⟨length, fault⟩
  | token {l : Lexeme} {fault : ParseFault} : l ∈ lexemes → Blames fault l.token →
      Points length earlier lexemes ⟨l.position, fault⟩
  | call {f : Function} {opening given : Nat} : opening ∈ earlier → given ≠ f.arity →
      Points length earlier lexemes ⟨opening, .wrongArgumentCount f given⟩

variable {length : Nat} {pending left : List Pending} {lexemes rest : List Lexeme}
  {error : ParseError}

/-- It is enough that every parenthesis open before the rest is one of the tokens, or was open
before all of them. -/
theorem Points.mono {earlier passed : List Nat} (points : Points length passed rest error)
    (more : rest ⊆ lexemes)
    (known : ∀ i ∈ passed, i ∈ earlier ∨ ⟨i, .opening⟩ ∈ lexemes) :
    Points length earlier lexemes error := by
  cases points with
  | ending fault => exact .ending fault
  | token member blames => exact .token (more member) blames
  | @call f opening given member wrong =>
    rcases known opening member with before | passed
    · exact .call before wrong
    · exact .token passed (.wrongArgumentCount wrong)

/-- What is passed in between opens no call that was not open. -/
theorem Points.behind {l : Lexeme} (points : Points length (opened left) rest error)
    (below : left <:+ pending) : Points length (opened pending) (l :: rest) error :=
  points.mono (List.subset_cons_self l rest) fun _ member =>
    .inl ((below.sublist.filterMap _).subset member)

theorem points_of_finish (unfinished : finish length pending = .error error) :
    Points length (opened pending) [] error := by
  have ending : error = ⟨length, .unbalancedOpening⟩ := by
    induction pending with
    | nil => cases unfinished
    | cons top rest ih =>
      cases top with
      | binary | negate => exact ih (error_of_map unfinished)
      | group | call => exact (Except.error.inj unfinished).symm
  rw [ending]
  exact .ending (.inr rfl)

/-- Every fault points to the end, to one of the tokens, or to a call that waits before them. -/
def Pointed (length : Nat) (lexemes : List Lexeme) : Prop :=
  ∀ pending awaiting error, reorder length pending awaiting lexemes = .error error →
    Points length (opened pending) lexemes error

variable {position : Nat}

theorem pointed_nil : Pointed length [] := by
  intro pending awaiting error refused
  cases awaiting with
  | true =>
    cases refused
    exact .ending (.inl rfl)
  | false => exact points_of_finish refused

theorem pointed_number (behind : Pointed length rest) (x : Float) :
    Pointed length (⟨position, .number x⟩ :: rest) := by
  intro pending awaiting error refused
  cases awaiting with
  | true =>
    have points := behind pending false error (error_of_map refused)
    exact points.behind List.suffix_rfl
  | false =>
    cases refused
    exact .token List.mem_cons_self (.number x)

/-- A call that is opened here is one of the tokens. -/
theorem pointed_name (behind : Pointed length rest) (inside : Pointed length rest.tail)
    (name : String) : Pointed length (⟨position, .name name⟩ :: rest) := by
  intro pending awaiting error refused
  rw [reorder.eq_def] at refused
  cases awaiting with
  | false =>
    cases refused
    exact .token List.mem_cons_self (.name name)
  | true =>
    simp only [Bool.not_true, Bool.false_eq_true, ↓reduceIte] at refused
    split at refused
    · have points := behind pending false error (error_of_map refused)
      exact points.behind List.suffix_rfl
    next noVariable =>
    split at refused
    · next noFunction =>
      cases refused
      exact .token List.mem_cons_self (.unknownName noVariable noFunction)
    next f named =>
    obtain rfl := Function.name_of_ofName named
    split at refused
    · next opening others =>
      have points := inside (.call f opening 0 :: pending) true error refused
      refine points.mono (List.subset_cons_of_subset _ (List.subset_cons_self _ _)) ?_
      intro i member
      rcases List.mem_cons.mp member with rfl | before
      · exact .inr (List.mem_cons_of_mem _ List.mem_cons_self)
      · exact .inl before
    · cases refused
      exact .token List.mem_cons_self (.expectedOpening f)

theorem pointed_operator (behind : Pointed length rest) (op : Binary) :
    Pointed length (⟨position, .operator op⟩ :: rest) := by
  intro pending awaiting error refused
  cases awaiting with
  | true =>
    cases op with
    | add => exact (behind pending true error refused).behind List.suffix_rfl
    | sub =>
      have points : Points length (opened pending) rest error :=
        behind (.negate :: pending) true error refused
      exact points.behind List.suffix_rfl
    | mul | div | pow =>
      cases refused
      exact .token List.mem_cons_self (.missingLeftOperand (by decide) (by decide))
  | false =>
    rw [reorder_operator rfl] at refused
    have points : Points length (opened (release op pending).2) rest error :=
      behind (.binary op :: (release op pending).2) true error (error_of_map refused)
    exact points.behind (release_suffix op pending)

theorem pointed_opening (behind : Pointed length rest) :
    Pointed length (⟨position, .opening⟩ :: rest) := by
  intro pending awaiting error refused
  cases awaiting with
  | true =>
    have points : Points length (opened pending) rest error :=
      behind (.group :: pending) true error refused
    exact points.behind List.suffix_rfl
  | false =>
    cases refused
    exact .token List.mem_cons_self .opening

theorem pointed_comma (behind : Pointed length rest) :
    Pointed length (⟨position, .comma⟩ :: rest) := by
  intro pending awaiting error refused
  cases awaiting with
  | true =>
    cases refused
    exact .token List.mem_cons_self .emptyArgument
  | false =>
    rw [reorder.eq_def] at refused
    simp only [Bool.false_eq_true, ↓reduceIte] at refused
    have shape := drained pending
    have below := drain_suffix pending
    generalize drain pending = result at shape below refused
    obtain ⟨items, left⟩ := result
    cases shape with
    | empty | group =>
      cases refused
      exact .token List.mem_cons_self .strayComma
    | call f opening commas left =>
      -- one more comma, at the same place
      have points : Points length (opened (.call f opening commas :: left)) rest error :=
        behind (.call f opening (commas + 1) :: left) true error (error_of_map refused)
      exact points.behind below

theorem pointed_closing (behind : Pointed length rest) :
    Pointed length (⟨position, .closing⟩ :: rest) := by
  intro pending awaiting error refused
  cases awaiting with
  | true =>
    cases refused
    exact .token List.mem_cons_self .missingOperandBeforeClosing
  | false =>
    rw [reorder.eq_def] at refused
    simp only [Bool.false_eq_true, ↓reduceIte] at refused
    have shape := drained pending
    have below := drain_suffix pending
    generalize drain pending = result at shape below refused
    obtain ⟨items, left⟩ := result
    cases shape with
    | empty =>
      cases refused
      exact .token List.mem_cons_self .unbalancedClosing
    | group left =>
      have points := behind left false error (error_of_map refused)
      exact points.behind ((List.suffix_cons _ left).trans below)
    | call f opening commas left =>
      simp only at refused
      split at refused
      · have points := behind left false error (error_of_map refused)
        exact points.behind ((List.suffix_cons _ left).trans below)
      · next wrong =>
        cases refused
        exact .call ((below.sublist.filterMap _).subset List.mem_cons_self) wrong

theorem pointed (length : Nat) (lexemes : List Lexeme) : Pointed length lexemes := by
  induction lexemes using calls_induction with
  | nil => exact pointed_nil
  | cons position token rest behind inside =>
    cases token with
    | number x => exact pointed_number behind x
    | name name => exact pointed_name behind inside name
    | operator op => exact pointed_operator behind op
    | opening => exact pointed_opening behind
    | closing => exact pointed_closing behind
    | comma => exact pointed_comma behind

theorem points_of_reorder {awaiting : Bool}
    (refused : reorder length [] awaiting lexemes = .error error) :
    Points length [] lexemes error :=
  pointed length lexemes [] awaiting error refused

theorem Blames.ne_malformed {fault : ParseFault} {token : Token} (blames : Blames fault token) :
    fault ≠ .malformed := by
  rintro rfl
  cases blames

theorem Points.ne_malformed {earlier : List Nat} (points : Points length earlier lexemes error) :
    error.fault ≠ .malformed := by
  cases points with
  | ending fault => rcases fault with rfl | rfl <;> exact fun same => nomatch same
  | token _ blames => exact blames.ne_malformed
  | call => exact fun same => nomatch same

end Postfix

namespace Expr

/-! ### Texts that are at fault -/

/-- What a fault of a text is about, and the place where it begins. -/
inductive Explained (text : String) : ParseError → Prop where
  | blank : Token.Splits text.toList [] → Explained text ⟨0, .emptyExpression⟩
  | ending {fault : ParseFault} : fault = .unexpectedEnd ∨ fault = .unbalancedOpening →
      Explained text ⟨text.utf8ByteSize, fault⟩
  | token {lexemes : List Lexeme} {l : Lexeme} {word rest : List Char} {fault : ParseFault} :
      Token.lex 0 text.toList = .ok lexemes → l ∈ lexemes →
      Token.Behind 0 text.toList l.position (word ++ rest) → Token.Written word l.token →
      Postfix.Blames fault l.token → Explained text ⟨l.position, fault⟩
  | flaw {place : Nat} {rest : List Char} {fault : ParseFault} :
      Token.Behind 0 text.toList place rest → Token.Flaw rest fault →
      Explained text ⟨place, fault⟩

variable {text : String} {error : ParseError}

theorem Explained.isValid (explained : Explained text error) :
    (String.Pos.Raw.mk error.position).IsValid text := by
  cases explained with
  | blank _ => exact String.Pos.Raw.isValid_zero
  | ending _ => exact String.Pos.Raw.isValid_rawEndPos
  | token _ _ behind _ _ | flaw behind _ => exact behind.isValid

theorem Explained.ne_malformed (explained : Explained text error) : error.fault ≠ .malformed := by
  cases explained with
  | blank _ => exact fun same => nomatch same
  | ending fault => rcases fault with rfl | rfl <;> exact fun same => nomatch same
  | token _ _ _ _ blames => exact blames.ne_malformed
  | flaw _ flaw => cases flaw <;> exact fun same => nomatch same

theorem explained_of_points {lexemes : List Lexeme} (read : Token.lex 0 text.toList = .ok lexemes)
    (points : Postfix.Points text.utf8ByteSize [] lexemes error) : Explained text error := by
  cases points with
  | ending fault => exact .ending fault
  | token member blames =>
    have located := (Token.splits_of_lex read).located read
    obtain ⟨word, rest, behind, written⟩ := located.behind member
    exact .token read member behind written blames
  | call before _ => cases before

/-- Every fault that is reported is explained by the text. -/
theorem explained_of_parse (unread : parse text = .error error) : Explained text error := by
  unfold parse at unread
  rcases Token.bind_eq_error.mp unread with unsplit | ⟨lexemes, read, unread⟩
  · obtain ⟨rest, behind, flaw⟩ := Token.flaw_of_lex unsplit
    exact .flaw behind flaw
  cases lexemes with
  | nil =>
    cases unread
    exact .blank (Token.splits_of_lex read)
  | cons l rest =>
    simp only [List.isEmpty_cons, Bool.false_eq_true, ↓reduceIte] at unread
    rcases Token.bind_eq_error.mp unread with refused | ⟨items, reordered, unbuilt⟩
    · exact explained_of_points read (Postfix.points_of_reorder refused)
    · obtain ⟨e, built⟩ := Postfix.tree_of_reorder reordered
      rw [built] at unbuilt
      cases unbuilt

end Expr

/-- A fault of the text, and none of the reader itself. -/
def Mishap.IsOfText (mishap : Mishap) : Prop :=
  ∃ error, mishap = .fault error ∧ error.fault ≠ .malformed

namespace Pieces

theorem lexemes_of_ofText {text : String} {pieces : List (Nat × Piece)}
    (found : ofText text = .ok pieces) :
    ∃ lexemes : List Lexeme, pieces = lexemes.map Lexeme.piece := by
  rw [ofText_eq] at found
  cases read : Token.lex 0 text.toList with
  | error error =>
    rw [read] at found
    cases found
  | ok lexemes =>
    rw [read] at found
    exact ⟨lexemes, (Except.ok.inj found).symm⟩

theorem builds_of_arrange {length : Nat} {lexemes : List Lexeme} {items : List Postfix}
    (arranged : arrange length [] true (lexemes.map Lexeme.piece) = .ok items) :
    ∃ e, build items = .ok e ∧ Builds items e := by
  rw [arrange_lexemes] at arranged
  obtain ⟨e, built⟩ := Postfix.tree_of_reorder (mapError_eq_ok arranged)
  refine ⟨e, ?_, builds_of_tree built⟩
  rw [build, built]

theorem isOfText_of_arrange {length : Nat} {lexemes : List Lexeme} {mishap : Mishap}
    (refused : arrange length [] true (lexemes.map Lexeme.piece) = .error mishap) :
    mishap.IsOfText := by
  rw [arrange_lexemes] at refused
  obtain ⟨error, reordering, rfl⟩ := mapError_eq_error refused
  exact ⟨error, rfl, (Postfix.points_of_reorder reordering).ne_malformed⟩

theorem isOfText_of_parse {text : String} {mishap : Mishap}
    (unread : parse text = .error mishap) : mishap.IsOfText := by
  rw [parse_eq] at unread
  obtain ⟨error, reading, rfl⟩ := mapError_eq_error unread
  exact ⟨error, rfl, (Expr.explained_of_parse reading).ne_malformed⟩

end Pieces

namespace Expr

/-- What the postfix order of the pieces of a text builds is one tree. Reading the text over its
bytes is reading it, and nothing but the text is ever at fault, at a place between two characters
that explains the fault. -/
theorem parse_blames_text (text : String) :
    (∀ pieces length, Pieces.ofText text = .ok pieces →
      (∀ items, Pieces.arrange length [] true pieces = .ok items →
        ∃ e, Pieces.build items = .ok e ∧ Pieces.Builds items e) ∧
      ∀ mishap, Pieces.arrange length [] true pieces = .error mishap → mishap.IsOfText) ∧
    Pieces.Agrees text ∧
    (∀ mishap, Pieces.parse text = .error mishap → mishap.IsOfText) ∧
    ∀ error, parse text = .error error →
      error.position ≤ text.utf8ByteSize ∧ (String.Pos.Raw.mk error.position).IsValid text ∧
        Explained text error := by
  refine ⟨fun pieces length found => ?_, Pieces.agrees text,
    fun _ => Pieces.isOfText_of_parse, fun error unread => ?_⟩
  · obtain ⟨lexemes, rfl⟩ := Pieces.lexemes_of_ofText found
    exact ⟨fun _ => Pieces.builds_of_arrange, fun _ => Pieces.isOfText_of_arrange⟩
  · have explained := explained_of_parse unread
    exact ⟨explained.isValid.le_utf8ByteSize, explained.isValid, explained⟩

theorem parse_blames_text_accented :
    let pieces : List (Nat × Piece) := [(0, .symbol '-'), (1, .name "x"), (2, .symbol '^'),
      (3, .name "abs"), (6, .opening), (7, .name "y"), (8, .closing)]
    let items : List Postfix :=
      [.var .x, .var .y, .call (.unary .abs), .binary .pow, .negate]
    let others : List (Nat × Piece) := [(0, .name "abs"), (3, .opening), (4, .name "x"),
      (5, .comma), (6, .name "y"), (7, .closing)]
    let mishap : Mishap := .fault ⟨3, .wrongArgumentCount (.unary .abs) 2⟩
    let error : ParseError := ⟨2, .unexpectedCharacter 'Ã'⟩
    (Pieces.ofText "-x^abs(y)" = .ok pieces ∧ Pieces.arrange 9 [] true pieces = .ok items ∧
      ∃ e, Pieces.build items = .ok e ∧ Pieces.Builds items e) ∧
    (Pieces.ofText "abs(x,y)" = .ok others ∧ Pieces.arrange 8 [] true others = .error mishap ∧
      mishap.IsOfText) ∧
    (Pieces.parse "x+é" = .error (.fault error) ∧ (Mishap.fault error).IsOfText) ∧
    parse "x+é" = .error error ∧ error.position ≤ "x+é".utf8ByteSize ∧
      (String.Pos.Raw.mk error.position).IsValid "x+é" ∧ Explained "x+é" error := by
  intro pieces items others mishap error
  have found : Pieces.ofText "-x^abs(y)" = .ok pieces := by with_unfolding_all rfl
  have arranged : Pieces.arrange 9 [] true pieces = .ok items := by with_unfolding_all rfl
  have foundOthers : Pieces.ofText "abs(x,y)" = .ok others := by with_unfolding_all rfl
  have refused : Pieces.arrange 8 [] true others = .error mishap := by with_unfolding_all rfl
  have broken : Pieces.parse "x+é" = .error (.fault error) := by with_unfolding_all rfl
  have unread : parse "x+é" = .error error := by with_unfolding_all rfl
  obtain ⟨-, -, only, explains⟩ := parse_blames_text "x+é"
  exact ⟨⟨found, arranged, ((parse_blames_text _).1 _ _ found).1 _ arranged⟩,
    ⟨foundOthers, refused, ((parse_blames_text _).1 _ _ foundOthers).2 _ refused⟩,
    ⟨broken, only _ broken⟩, unread, explains _ unread⟩

end Expr

end FractalBreeder
