import FractalBreeder.Expr.Token

/-!
Number literals: digits with at most one point, and an exponent. The reader of decimals and the
measure of a literal's length are compared with this description.
-/
namespace FractalBreeder.Literal

open Decimal (isDigit natOfDigits)
open Token (isNumberChar signLength exponentLength numberLength)

def Digits (cs : List Char) : Prop := ∀ c ∈ cs, isDigit c = true

/-- At least one digit and at most one point, with the coefficient and the number of places. -/
inductive Mantissa : List Char → Nat → Nat → Prop where
  | whole {digits : List Char} : digits ≠ [] → Digits digits →
      Mantissa digits (natOfDigits digits) 0
  | pointed {whole fraction : List Char} : whole ++ fraction ≠ [] → Digits whole →
      Digits fraction →
      Mantissa (whole ++ '.' :: fraction) (natOfDigits (whole ++ fraction)) fraction.length

theorem mantissa_nonempty {cs : List Char} {coefficient places : Nat}
    (mantissa : Mantissa cs coefficient places) : cs ≠ [] := by
  cases mantissa with
  | whole nonempty _ => exact nonempty
  | pointed _ _ _ => simp

theorem numeric_mantissa {cs : List Char} {coefficient places : Nat}
    (mantissa : Mantissa cs coefficient places) : ∀ c ∈ cs, isNumberChar c = true := by
  have numeric : ∀ {digits : List Char}, Digits digits → ∀ c ∈ digits, isNumberChar c = true := by
    intro digits all c member
    rw [isNumberChar, all c member, Bool.true_or]
  cases mantissa with
  | whole _ all => exact numeric all
  | pointed _ allWhole allFraction =>
      intro c member
      rcases List.mem_append.mp member with inWhole | inRest
      · exact numeric allWhole c inWhole
      · rcases List.mem_cons.mp inRest with rfl | inFraction
        · rfl
        · exact numeric allFraction c inFraction

def Marker (c : Char) : Prop := c = 'e' ∨ c = 'E'

instance : DecidablePred Marker := fun c => inferInstanceAs (Decidable (c = 'e' ∨ c = 'E'))

/-- Nothing, or a marker with at least one digit behind it and perhaps a sign between them. -/
inductive Exponent : List Char → Int → Prop where
  | absent : Exponent [] 0
  | plain {marker : Char} {digits : List Char} : Marker marker → digits ≠ [] → Digits digits →
      Exponent (marker :: digits) (natOfDigits digits)
  | plus {marker : Char} {digits : List Char} : Marker marker → digits ≠ [] → Digits digits →
      Exponent (marker :: '+' :: digits) (natOfDigits digits)
  | minus {marker : Char} {digits : List Char} : Marker marker → digits ≠ [] → Digits digits →
      Exponent (marker :: '-' :: digits) (-(natOfDigits digits : Int))

/-- The binary64 number that a literal stands for. -/
def value (coefficient places : Nat) (exponent : Int) : Float :=
  Decimal.toFloat false ⟨coefficient, exponent - places⟩

/-- A front of the text that has the property, and no longer front has it. -/
def Longest (P : List Char → Prop) (front rest : List Char) : Prop :=
  P front ∧ ∀ other, P other → other <+: front ++ rest → other.length ≤ front.length

theorem takeWhile_of_longest {p : Char → Bool} {front rest : List Char}
    (longest : Longest (fun cs => ∀ c ∈ cs, p c = true) front rest) :
    (front ++ rest).takeWhile p = front := by
  rcases longest with ⟨holds, maximal⟩
  have bounded := maximal ((front ++ rest).takeWhile p)
    (List.all_eq_true.mp List.all_takeWhile) (List.takeWhile_prefix p)
  rw [List.takeWhile_append_of_pos holds] at bounded ⊢
  rw [List.length_append] at bounded
  have empty : rest.takeWhile p = [] := List.eq_nil_of_length_eq_zero (by omega)
  rw [empty, List.append_nil]

theorem longest_takeWhile (p : Char → Bool) (cs : List Char) :
    Longest (fun cs => ∀ c ∈ cs, p c = true) (cs.takeWhile p) (cs.dropWhile p) := by
  constructor
  · exact List.all_eq_true.mp List.all_takeWhile
  · rintro other holds ⟨tail, whole⟩
    rw [List.takeWhile_append_dropWhile] at whole
    subst whole
    rw [List.takeWhile_append_of_pos holds, List.length_append]
    omega

theorem digit_not_marker {c : Char} (marker : Marker c) : isDigit c = false := by
  rcases marker with rfl | rfl <;> decide

theorem digit_not_sign {c : Char} (digit : isDigit c = true) : c ≠ '+' ∧ c ≠ '-' := by
  constructor
  · rintro rfl
    exact absurd digit (by decide)
  · rintro rfl
    exact absurd digit (by decide)

theorem takeWhile_stopped {p : Char → Bool} {front rest : List Char}
    (all : ∀ c ∈ front, p c = true) (stops : ∀ c ∈ rest.head?, p c = false) :
    (front ++ rest).takeWhile p = front ∧ (front ++ rest).dropWhile p = rest := by
  rw [List.takeWhile_append_of_pos all, List.dropWhile_append_of_pos all]
  cases rest with
  | nil => simp
  | cons c tail => simp [stops c rfl]

theorem digits_takeWhile (digits : List Char) {rest : List Char} (all : Digits digits)
    (stops : ∀ c ∈ rest.head?, isDigit c = false) :
    (digits ++ rest).takeWhile isDigit = digits ∧ (digits ++ rest).dropWhile isDigit = rest :=
  takeWhile_stopped all stops

theorem exponent_head {cs : List Char} {e : Int} (exponent : Exponent cs e) :
    ∀ c ∈ cs.head?, Marker c := by
  intro c head
  cases exponent with
  | absent => cases head
  | plain marker _ _ => exact Option.some.inj head ▸ marker
  | plus marker _ _ => exact Option.some.inj head ▸ marker
  | minus marker _ _ => exact Option.some.inj head ▸ marker

def Sign (c : Char) : Prop := c = '+' ∨ c = '-'

theorem exponentLength_signed {marker sign : Char} (isMarker : Marker marker) (isSign : Sign sign)
    (rest : List Char) :
    exponentLength (marker :: sign :: rest) =
      if rest.takeWhile isDigit = [] then 0 else 2 + (rest.takeWhile isDigit).length := by
  have one : signLength (sign :: rest) = 1 := by
    rcases isSign with rfl | rfl <;> rfl
  rcases isMarker with rfl | rfl <;> simp [exponentLength, one]

theorem exponentLength_plain {marker : Char} (isMarker : Marker marker) {rest : List Char}
    (unsigned : ∀ c ∈ rest.head?, ¬ Sign c) :
    exponentLength (marker :: rest) =
      if rest.takeWhile isDigit = [] then 0 else 1 + (rest.takeWhile isDigit).length := by
  have signless : signLength rest = 0 := by
    unfold signLength
    split
    · exact absurd (.inl rfl) (unsigned '+' rfl)
    · exact absurd (.inr rfl) (unsigned '-' rfl)
    · rfl
  rcases isMarker with rfl | rfl <;> simp [exponentLength, signless]

theorem exponentLength_unmarked {c : Char} (unmarked : ¬ Marker c) (rest : List Char) :
    exponentLength (c :: rest) = 0 := by
  have not_marked : (c == 'e' || c == 'E') = false := by
    simpa [Marker] using unmarked
  simp [exponentLength, not_marked]

theorem exponent_front (cs : List Char) :
    ∃ front rest e, cs = front ++ rest ∧ Exponent front e ∧ front.length = exponentLength cs := by
  have digits : ∀ tail : List Char, Digits (tail.takeWhile isDigit) :=
    fun tail => List.all_eq_true.mp List.all_takeWhile
  cases cs with
  | nil => exact ⟨[], [], 0, rfl, .absent, rfl⟩
  | cons marker rest =>
      by_cases isMarker : Marker marker
      · by_cases signed : ∃ sign tail, rest = sign :: tail ∧ Sign sign
        · rcases signed with ⟨sign, tail, rfl, isSign⟩
          rw [exponentLength_signed isMarker isSign]
          split
          · exact ⟨[], _, 0, rfl, .absent, rfl⟩
          · next nonempty =>
              refine ⟨marker :: sign :: tail.takeWhile isDigit, tail.dropWhile isDigit, ?_⟩
              have split : marker :: sign :: tail =
                  marker :: sign :: tail.takeWhile isDigit ++ tail.dropWhile isDigit := by
                simp [List.takeWhile_append_dropWhile]
              have counted : (marker :: sign :: tail.takeWhile isDigit).length =
                  2 + (tail.takeWhile isDigit).length := by
                simp only [List.length_cons]
                omega
              rcases isSign with rfl | rfl
              · exact ⟨_, split, .plus isMarker nonempty (digits tail), counted⟩
              · exact ⟨_, split, .minus isMarker nonempty (digits tail), counted⟩
        · have unsigned : ∀ c ∈ rest.head?, ¬ Sign c := by
            intro c head isSign
            rcases List.head?_eq_some_iff.mp head with ⟨tail, rfl⟩
            exact signed ⟨c, tail, rfl, isSign⟩
          rw [exponentLength_plain isMarker unsigned]
          split
          · exact ⟨[], _, 0, rfl, .absent, rfl⟩
          · next nonempty =>
              refine ⟨marker :: rest.takeWhile isDigit, rest.dropWhile isDigit, _, ?_,
                .plain isMarker nonempty (digits rest), ?_⟩
              · simp [List.takeWhile_append_dropWhile]
              · simp only [List.length_cons]
                omega
      · rw [exponentLength_unmarked isMarker]
        exact ⟨[], _, 0, rfl, .absent, rfl⟩

theorem length_le_takeWhile {digits : List Char} (all : Digits digits) (tail : List Char) :
    digits.length ≤ ((digits ++ tail).takeWhile isDigit).length := by
  rw [List.takeWhile_append_of_pos all, List.length_append]
  omega

theorem length_le_exponentLength {cs : List Char} {e : Int} (exponent : Exponent cs e)
    (tail : List Char) :
    cs.length ≤ exponentLength (cs ++ tail) := by
  have signed : ∀ {marker sign : Char} {digits : List Char}, Marker marker → Sign sign →
      digits ≠ [] → Digits digits →
      digits.length + 2 ≤ exponentLength (marker :: sign :: (digits ++ tail)) := by
    intro marker sign digits isMarker isSign nonempty all
    have counted := length_le_takeWhile all tail
    have positive := List.length_pos_iff.mpr nonempty
    rw [exponentLength_signed isMarker isSign, if_neg (List.length_pos_iff.mp (by omega))]
    omega
  cases exponent with
  | absent => exact Nat.zero_le _
  | @plain marker digits isMarker nonempty all =>
      have counted := length_le_takeWhile all tail
      have positive := List.length_pos_iff.mpr nonempty
      have unsigned : ∀ c ∈ (digits ++ tail).head?, ¬ Sign c := by
        intro c head isSign
        rcases List.exists_cons_of_ne_nil nonempty with ⟨first, others, rfl⟩
        obtain rfl := Option.some.inj head
        have plain := digit_not_sign (all first List.mem_cons_self)
        exact isSign.elim plain.1 plain.2
      rw [List.cons_append, exponentLength_plain isMarker unsigned,
        if_neg (List.length_pos_iff.mp (by omega)), List.length_cons]
      omega
  | plus isMarker nonempty all => exact signed isMarker (.inl rfl) nonempty all
  | minus isMarker nonempty all => exact signed isMarker (.inr rfl) nonempty all

def IsExponent (cs : List Char) : Prop := ∃ e, Exponent cs e

/-- The measured length is that of the longest exponent in front. -/
theorem longest_exponent (cs : List Char) :
    ∃ front rest, cs = front ++ rest ∧ Longest IsExponent front rest := by
  rcases exponent_front cs with ⟨front, rest, e, rfl, exponent, measured⟩
  refine ⟨front, rest, rfl, ⟨e, exponent⟩, ?_⟩
  rintro other ⟨otherExponent, isExponent⟩ ⟨tail, whole⟩
  rw [measured, ← whole]
  exact length_le_exponentLength isExponent tail

theorem exponentLength_of_longest {front rest : List Char}
    (longest : Longest IsExponent front rest) : exponentLength (front ++ rest) = front.length := by
  rcases longest with ⟨⟨e, exponent⟩, maximal⟩
  have lower := length_le_exponentLength exponent rest
  rcases exponent_front (front ++ rest) with ⟨measured, tail, other, whole, isExponent, counted⟩
  have upper := maximal measured ⟨other, isExponent⟩ ⟨tail, whole.symm⟩
  omega

/-- The measured length is that of the longest run of digits and points and of the longest
exponent behind it. -/
theorem numberLength_of_longest {run exponent rest : List Char}
    (longestRun : Longest (fun cs => ∀ c ∈ cs, isNumberChar c = true) run (exponent ++ rest))
    (longestExponent : Longest IsExponent exponent rest) :
    numberLength (run ++ exponent ++ rest) = (run ++ exponent).length := by
  have measured := exponentLength_of_longest longestExponent
  rw [List.append_assoc]
  simp only [numberLength, takeWhile_of_longest longestRun, List.drop_left, measured,
    List.length_append]

theorem longest_number (cs : List Char) :
    ∃ run exponent rest, cs = run ++ exponent ++ rest ∧
      Longest (fun cs => ∀ c ∈ cs, isNumberChar c = true) run (exponent ++ rest) ∧
      Longest IsExponent exponent rest := by
  rcases longest_exponent (cs.dropWhile isNumberChar) with ⟨exponent, rest, split, longest⟩
  refine ⟨cs.takeWhile isNumberChar, exponent, rest, ?_, split ▸ longest_takeWhile _ cs, longest⟩
  rw [List.append_assoc, ← split, List.takeWhile_append_dropWhile]

theorem readExponent_of_exponent {cs : List Char} {e : Int} (exponent : Exponent cs e) :
    Decimal.readExponent? cs = some e := by
  have signless : ∀ digits : List Char, digits ≠ [] → Digits digits →
      Decimal.readSign digits = (false, digits) := by
    intro digits nonempty all
    rcases List.exists_cons_of_ne_nil nonempty with ⟨first, others, rfl⟩
    have plain := digit_not_sign (all first List.mem_cons_self)
    unfold Decimal.readSign
    split
    · next same => exact absurd (List.cons.inj same).1 plain.2
    · next same => exact absurd (List.cons.inj same).1 plain.1
    · rfl
  cases exponent with
  | absent => rfl
  | @plain marker digits isMarker nonempty all =>
      have every : digits.all isDigit = true := List.all_eq_true.mpr all
      have isMarked : marker = 'e' ∨ marker = 'E' := isMarker
      simp [Decimal.readExponent?, isMarked, signless digits nonempty all, every, nonempty]
  | @plus marker digits isMarker nonempty all =>
      have every : digits.all isDigit = true := List.all_eq_true.mpr all
      have isMarked : marker = 'e' ∨ marker = 'E' := isMarker
      simp [Decimal.readExponent?, isMarked, Decimal.readSign, every, nonempty]
  | @minus marker digits isMarker nonempty all =>
      have every : digits.all isDigit = true := List.all_eq_true.mpr all
      have isMarked : marker = 'e' ∨ marker = 'E' := isMarker
      simp [Decimal.readExponent?, isMarked, Decimal.readSign, every, nonempty]

theorem read_whole {digits rest : List Char} (all : Digits digits)
    (stops : ∀ c ∈ rest.head?, isDigit c = false) (noPoint : ∀ c ∈ rest.head?, c ≠ '.') :
    Decimal.read? (digits ++ rest) =
      if digits = [] then none
      else (Decimal.readExponent? rest).map fun e => ⟨natOfDigits digits, e⟩ := by
  rcases digits_takeWhile digits all stops with ⟨taken, left⟩
  unfold Decimal.read?
  rw [taken, left]
  split
  next fraction others same =>
    split at same
    · exact absurd rfl (noPoint '.' rfl)
    · rcases Prod.mk.inj same with ⟨rfl, rfl⟩
      simp

theorem read_pointed {whole fraction rest : List Char} (allWhole : Digits whole)
    (allFraction : Digits fraction) (stops : ∀ c ∈ rest.head?, isDigit c = false) :
    Decimal.read? (whole ++ '.' :: fraction ++ rest) =
      if whole ++ fraction = [] then none
      else (Decimal.readExponent? rest).map fun e =>
        ⟨natOfDigits (whole ++ fraction), e - fraction.length⟩ := by
  have pointStops : ∀ c ∈ ('.' :: fraction ++ rest).head?, isDigit c = false := by
    intro c head
    exact Option.some.inj head ▸ (by decide)
  rcases digits_takeWhile whole allWhole pointStops with ⟨takenWhole, leftWhole⟩
  rcases digits_takeWhile fraction allFraction stops with ⟨takenFraction, leftFraction⟩
  unfold Decimal.read?
  rw [List.append_assoc, takenWhole, leftWhole]
  simp only [List.cons_append, takenFraction, leftFraction]
  simp

theorem read_of_literal {mantissa exponent : List Char} {coefficient places : Nat} {e : Int}
    (isMantissa : Mantissa mantissa coefficient places) (isExponent : Exponent exponent e) :
    Decimal.read? (mantissa ++ exponent) = some ⟨coefficient, e - places⟩ := by
  have read := readExponent_of_exponent isExponent
  have marked := exponent_head isExponent
  have stops : ∀ c ∈ exponent.head?, isDigit c = false :=
    fun c head => digit_not_marker (marked c head)
  cases isMantissa with
  | whole nonempty all =>
      have noPoint : ∀ c ∈ exponent.head?, c ≠ '.' := by
        rintro c head rfl
        exact absurd (marked '.' head) (by decide)
      rw [read_whole all stops noPoint, if_neg nonempty, read]
      simp
  | pointed nonempty allWhole allFraction =>
      rw [read_pointed allWhole allFraction stops, if_neg nonempty, read]
      rfl

theorem numeric_split {cs : List Char} (numeric : ∀ c ∈ cs, isNumberChar c = true) :
    ∃ digits rest, cs = digits ++ rest ∧ Digits digits ∧ ∀ c ∈ rest.head?, c = '.' := by
  induction cs with
  | nil => exact ⟨[], [], rfl, by simp [Digits], by simp⟩
  | cons c tail ih =>
      cases digit : isDigit c with
      | true =>
          obtain ⟨digits, rest, rfl, all, point⟩ :=
            ih (fun d member => numeric d (List.mem_cons_of_mem _ member))
          refine ⟨c :: digits, rest, rfl, ?_, point⟩
          intro d member
          rcases List.mem_cons.mp member with rfl | inside
          · exact digit
          · exact all d inside
      | false =>
          refine ⟨[], c :: tail, rfl, by simp [Digits], ?_⟩
          intro d head
          obtain rfl := Option.some.inj head
          simpa [isNumberChar, digit] using numeric c List.mem_cons_self

/-- A run of digits and points that is read has at most one point and at least one digit. -/
theorem literal_of_read {run exponent : List Char} {e : Int} {d : Decimal}
    (numeric : ∀ c ∈ run, isNumberChar c = true) (isExponent : Exponent exponent e)
    (read : Decimal.read? (run ++ exponent) = some d) :
    ∃ coefficient places, Mantissa run coefficient places ∧ d = ⟨coefficient, e - places⟩ := by
  have readExponent := readExponent_of_exponent isExponent
  have marked := exponent_head isExponent
  have stops : ∀ c ∈ exponent.head?, isDigit c = false :=
    fun c head => digit_not_marker (marked c head)
  have noPoint : ∀ c ∈ exponent.head?, c ≠ '.' := by
    rintro c head rfl
    exact absurd (marked '.' head) (by decide)
  rcases numeric_split numeric with ⟨whole, rest, rfl, allWhole, point⟩
  cases rest with
  | nil =>
      rw [List.append_nil, read_whole allWhole stops noPoint] at read
      split at read
      · cases read
      · next nonempty =>
          rw [readExponent] at read
          refine ⟨natOfDigits whole, 0, ?_, ?_⟩
          · simpa using Mantissa.whole nonempty allWhole
          · simpa using (Option.some.inj read).symm
  | cons c tail =>
      obtain rfl := point c rfl
      have tailNumeric : ∀ c ∈ tail, isNumberChar c = true := by
        intro c member
        exact numeric c (List.mem_append_right _ (List.mem_cons_of_mem _ member))
      rcases numeric_split tailNumeric with ⟨fraction, more, rfl, allFraction, secondPoint⟩
      cases more with
      | nil =>
          rw [List.append_nil, read_pointed allWhole allFraction stops] at read
          split at read
          · cases read
          · next nonempty =>
              rw [readExponent] at read
              refine ⟨natOfDigits (whole ++ fraction), fraction.length, ?_, ?_⟩
              · simpa using Mantissa.pointed nonempty allWhole allFraction
              · exact (Option.some.inj read).symm
      | cons c others =>
          -- a second point is neither a digit nor an exponent
          obtain rfl := secondPoint c rfl
          have pointStops : ∀ c ∈ ('.' :: others ++ exponent).head?, isDigit c = false := by
            intro c head
            exact Option.some.inj head ▸ (by decide)
          have shape : whole ++ '.' :: (fraction ++ '.' :: others) ++ exponent =
              whole ++ '.' :: fraction ++ ('.' :: others ++ exponent) := by simp
          rw [shape, read_pointed allWhole allFraction pointStops] at read
          split at read
          · cases read
          · simp [Decimal.readExponent?] at read

end FractalBreeder.Literal
