import FractalBreeder.Proofs.Number.Ranks
import FractalBreeder.Proofs.Number.ShortestText
import FractalBreeder.Toml.Reader
import FractalBreeder.Toml.Writer

/-!
Numbers are read back as they were written: an integer digit by digit, and a float to the same bits,
with a point added where its shortest text has none.
-/
namespace FractalBreeder.Toml

open Decimal (isDigit natOfDigits)
open Literal (Digits)

/-! ### Digits -/

/-- Digits without a zero in front that says nothing. -/
structure Whole (ds : List Char) : Prop where
  nonempty : ds ≠ []
  digits : Digits ds
  leading : ds.head? = some '0' → ds.length = 1

theorem ungroup_digits {ds : List Char} (nonempty : ds ≠ []) (digits : Digits ds) :
    ungroup isDigit ds = some ds := by
  induction ds with
  | nil => exact absurd rfl nonempty
  | cons c ds ih =>
      have digit := digits c List.mem_cons_self
      cases ds with
      | nil => simp [ungroup, digit]
      | cons d ds =>
          have rest : Digits (d :: ds) := fun e member => digits e (List.mem_cons_of_mem c member)
          have single : d ≠ '_' := by
            rintro rfl
            exact absurd (rest _ List.mem_cons_self) (by decide)
          simp [ungroup, digit, single, ih (List.cons_ne_nil d ds) rest]

/-- What is grouped holds nothing but digits and underscores. -/
theorem isGrouped_of_ungroup {cs ds : List Char} (grouped : ungroup isDigit cs = some ds) :
    ∀ c ∈ cs, isGrouped c = true := by
  fun_induction ungroup isDigit cs generalizing ds with
  | case1 => cases grouped
  | case2 c digit => simp [isGrouped, digit]
  | case3 => cases grouped
  | case4 => cases grouped
  | case5 c rest digit ih =>
      obtain ⟨_, grouped, -⟩ := Option.map_eq_some_iff.mp grouped
      have first : isGrouped c = true := by simp_all [isGrouped]
      exact List.forall_mem_cons.mpr ⟨first, List.forall_mem_cons.mpr ⟨rfl, ih grouped⟩⟩
  | case6 c d rest digit _ ih =>
      obtain ⟨_, grouped, -⟩ := Option.map_eq_some_iff.mp grouped
      have first : isGrouped c = true := by simp_all [isGrouped]
      exact List.forall_mem_cons.mpr ⟨first, ih grouped⟩

theorem whole?_eq {ds : List Char} (whole : Whole ds) : whole? ds = some ds := by
  have proper : ¬ (ds.head? = some '0' ∧ 1 < ds.length) := by
    rintro ⟨zero, long⟩
    exact absurd (whole.leading zero) (by omega)
  simpa [whole?, ungroup_digits whole.nonempty whole.digits] using proper

theorem isGrouped_of_whole? {cs ds : List Char} (whole : whole? cs = some ds) :
    ∀ c ∈ cs, isGrouped c = true := by
  unfold whole? at whole
  obtain ⟨_, grouped, -⟩ := Option.bind_eq_some_iff.mp whole
  exact isGrouped_of_ungroup grouped

theorem head_toDigits {n : Nat} (positive : 0 < n) : (Nat.toDigits 10 n).head? ≠ some '0' := by
  induction n using Nat.strong_induction_on with
  | _ n ih =>
      by_cases small : n < 10
      · rw [Nat.toDigits_of_lt_base small]
        intro zero
        have code := congrArg Char.toNat (Option.some.inj zero)
        rw [Nat.toNat_digitChar_of_lt_ten small] at code
        change 48 + n = 48 at code
        omega
      · rw [Nat.toDigits_of_base_le (by decide) (by omega),
          List.head?_append_of_ne_nil _ Nat.toDigits_ne_nil]
        exact ih (n / 10) (by omega) (by omega)

theorem whole_toDigits (n : Nat) : Whole (Nat.toDigits 10 n) where
  nonempty := Nat.toDigits_ne_nil
  digits := Decimal.digits_toDigits n
  leading zero := by
    rcases Nat.eq_zero_or_pos n with rfl | positive
    · rfl
    · exact absurd zero (head_toDigits positive)

/-! ### Integers -/

/-- Behind a zero in front there is no letter of another base. -/
theorem integer?_decimal {cs : List Char}
    (plain : ∀ c ∈ cs.tail.head?, c ∉ ['x', 'o', 'b']) :
    integer? cs = (whole? (Decimal.readSign cs).2).bind fun ds =>
      Decimal.signed64? (if (Decimal.readSign cs).1 then -(natOfDigits ds : Int)
        else natOfDigits ds) := by
  unfold integer?
  split
  · exact absurd List.mem_cons_self (plain _ rfl)
  · exact absurd (by simp) (plain _ rfl)
  · exact absurd (by simp) (plain _ rfl)
  · rfl

theorem readSign_digits {ds rest : List Char} (nonempty : ds ≠ []) (digits : Digits ds) :
    Decimal.readSign (ds ++ rest) = (false, ds ++ rest) := by
  cases ds with
  | nil => exact absurd rfl nonempty
  | cons c ds =>
      obtain ⟨plus, minus⟩ := Literal.digit_not_sign (digits c List.mem_cons_self)
      simp [Decimal.readSign, plus, minus]

/-- A number in digits, behind a minus sign or none. -/
def signed (negative : Bool) (cs : List Char) : List Char := if negative then '-' :: cs else cs

theorem readSign_signed (negative : Bool) {ds : List Char} (nonempty : ds ≠ [])
    (digits : Digits ds) (rest : List Char) :
    Decimal.readSign (signed negative (ds ++ rest)) = (negative, ds ++ rest) := by
  cases negative with
  | false => exact readSign_digits nonempty digits
  | true => rfl

theorem plain_signed (negative : Bool) {ds : List Char} (nonempty : ds ≠ []) (digits : Digits ds)
    (rest : List Char) (stops : ∀ c ∈ rest.head?, c ∉ ['x', 'o', 'b']) :
    ∀ c ∈ (signed negative (ds ++ rest)).tail.head?, c ∉ ['x', 'o', 'b'] := by
  have digital : ∀ c, isDigit c = true → c ∉ ['x', 'o', 'b'] := by
    intro c digit member
    simp only [List.mem_cons, List.not_mem_nil, or_false] at member
    rcases member with rfl | rfl | rfl <;> cases digit
  intro c first
  cases ds with
  | nil => exact absurd rfl nonempty
  | cons d ds =>
      cases negative with
      | true =>
          obtain rfl := Option.some.inj first
          exact digital d (digits d List.mem_cons_self)
      | false =>
          cases ds with
          | nil => exact stops c first
          | cons e ds =>
              obtain rfl := Option.some.inj first
              exact digital e (digits e (List.mem_cons_of_mem _ List.mem_cons_self))

theorem toList_toString (n : Int) :
    (toString n).toList = signed (n < 0) (Nat.toDigits 10 n.natAbs) := by
  rw [Int.toString_eq_repr]
  cases n with
  | ofNat n => simp [Int.repr, signed]
  | negSucc n => simp [Int.repr, signed]

theorem integer?_writeInt {n : Int} {cs : List Char} (written : writeInt? n = some cs) :
    integer? cs = some n := by
  obtain ⟨m, inside, rfl⟩ := Option.map_eq_some_iff.mp written
  have same : m = n := by
    unfold Decimal.signed64? at inside
    split_ifs at inside
    exact (Option.some.inj inside).symm
  subst same
  have whole := whole_toDigits m.natAbs
  have plain := plain_signed (m < 0) whole.nonempty whole.digits [] nofun
  have sign := readSign_signed (m < 0) whole.nonempty whole.digits []
  rw [List.append_nil] at plain sign
  rw [toList_toString, integer?_decimal plain, sign, whole?_eq whole, Option.bind_some,
    Decimal.natOfDigits_toDigits]
  have value : (if decide (m < 0) = true then -(m.natAbs : Int) else m.natAbs) = m := by
    split_ifs with negative
    · have below : m < 0 := of_decide_eq_true negative
      omega
    · have above : ¬ m < 0 := fun below => negative (decide_eq_true below)
      omega
  rw [value, inside]

/-! ### Floats -/

/-- Digits with a point between them, and the decimal that they stand for. -/
inductive Pointed : List Char → Decimal → Prop where
  | mk {whole fraction : List Char} : Whole whole → fraction ≠ [] → Digits fraction →
      Pointed (whole ++ '.' :: fraction) ⟨natOfDigits (whole ++ fraction), -fraction.length⟩

theorem Pointed.of {whole fraction : List Char} {n places : Nat} (isWhole : Whole whole)
    (nonempty : fraction ≠ []) (digits : Digits fraction)
    (value : natOfDigits (whole ++ fraction) = n) (counted : fraction.length = places) :
    Pointed (whole ++ '.' :: fraction) ⟨n, -places⟩ := by
  subst value counted
  exact .mk isWhole nonempty digits

theorem digits_zeros (count : Nat) : Digits (List.replicate count '0') := by
  intro c member
  rw [(List.mem_replicate.mp member).2]
  rfl

theorem grouped_of_digits {ds : List Char} (digits : Digits ds) : ∀ c ∈ ds, isGrouped c = true := by
  intro c member
  rw [isGrouped, digits c member, Bool.true_or]

theorem ne_word {ds rest word : List Char} {c : Char} (nonempty : ds ≠ []) (digits : Digits ds)
    (letter : isDigit c = false) : ds ++ rest ≠ c :: word := by
  cases ds with
  | nil => exact absurd rfl nonempty
  | cons d ds =>
      intro same
      obtain rfl := (List.cons.inj same).1
      rw [digits _ List.mem_cons_self] at letter
      cases letter

theorem float?_pointed {cs : List Char} {d : Decimal} (p : Pointed cs d) (negative : Bool) :
    float? (signed negative cs) = finite? (d.toFloat negative) := by
  obtain @⟨whole, fraction, isWhole, nonempty, digits⟩ := p
  have sign := readSign_signed negative isWhole.nonempty isWhole.digits ('.' :: fraction)
  have infinite : whole ++ '.' :: fraction ≠ "inf".toList :=
    ne_word isWhole.nonempty isWhole.digits (by decide)
  have notANumber : whole ++ '.' :: fraction ≠ "nan".toList :=
    ne_word isWhole.nonempty isWhole.digits (by decide)
  have front : (whole ++ '.' :: fraction).takeWhile isGrouped = whole ∧
      (whole ++ '.' :: fraction).dropWhile isGrouped = '.' :: fraction :=
    Literal.takeWhile_stopped (grouped_of_digits isWhole.digits) (by simp [isGrouped, isDigit])
  have back : (fraction ++ []).takeWhile isGrouped = fraction ∧
      (fraction ++ []).dropWhile isGrouped = [] :=
    Literal.takeWhile_stopped (grouped_of_digits digits) nofun
  rw [List.append_nil] at back
  unfold float?
  rw [sign]
  simp only [if_neg infinite, if_neg notANumber, front]
  simp [fraction?, exponent?, whole?_eq isWhole, back, ungroup_digits nonempty digits]

/-- A number with a point is no integer. -/
theorem integer?_pointed {cs : List Char} {d : Decimal} (p : Pointed cs d) (negative : Bool) :
    integer? (signed negative cs) = none := by
  obtain @⟨whole, fraction, isWhole, -, -⟩ := p
  have plain := plain_signed negative isWhole.nonempty isWhole.digits ('.' :: fraction) (by simp)
  rw [integer?_decimal plain, readSign_signed negative isWhole.nonempty isWhole.digits]
  cases read : whole? (whole ++ '.' :: fraction) with
  | none => rfl
  | some ds =>
      have point := isGrouped_of_whole? read '.' (by simp)
      cases point

theorem toFloat_tenfold (n : Nat) :
    Decimal.toFloat false ⟨10 * n, -1⟩ = Decimal.toFloat false ⟨n, 0⟩ := by
  by_cases zero : n = 0
  · simp [Decimal.toFloat, zero]
  · have nonzero : 10 * n ≠ 0 := by omega
    have same : Binary64.magnitudeBits (10 * n) (10 ^ 1) = Binary64.magnitudeBits n (10 ^ 0) := by
      apply Binary64.magnitudeBits_congr (by decide) (by decide)
      push_cast
      field_simp
    rw [Decimal.toFloat_eq_ofRatio nonzero (by decide) (by omega),
      Decimal.toFloat_eq_ofRatio zero (by decide) (by omega)]
    exact congrArg (fun bits => Float.ofBits (UInt64.ofNat (0 + bits))) same

/-- A number as a float is written: with a point, which is added if there is none. -/
def withPoint (cs : List Char) : List Char := if cs.contains '.' then cs else cs ++ ['.', '0']

theorem pointed_digits (n : Nat) :
    Pointed (withPoint (Nat.toDigits 10 n)) ⟨10 * n, -1⟩ := by
  have whole := whole_toDigits n
  have value : natOfDigits (Nat.toDigits 10 n ++ ['0']) = 10 * n := by
    rw [natOfDigits, List.foldl_append]
    exact congrArg (10 * ·) (Decimal.natOfDigits_toDigits n)
  have bare : ¬ (Nat.toDigits 10 n).contains '.' = true := by
    intro point
    exact absurd (whole.digits '.' (List.contains_iff_mem.mp point)) (by decide)
  rw [withPoint, if_neg bare]
  exact .of whole (List.cons_ne_nil '0' []) (digits_zeros 1) value rfl

theorem withPoint_pointed {cs : List Char} {d : Decimal} (p : Pointed cs d) : withPoint cs = cs := by
  obtain @⟨whole, fraction, -, -, -⟩ := p
  exact if_pos (by simp)

theorem whole_take {ds : List Char} {k : Nat} (whole : Whole ds) (some_ : 0 < k)
    (less : k < ds.length) : Whole (ds.take k) where
  nonempty := by
    rw [← List.length_pos_iff, List.length_take]
    omega
  digits c member := whole.digits c (List.mem_of_mem_take member)
  leading zero := by
    rw [List.head?_take, if_neg (by omega)] at zero
    have single := whole.leading zero
    omega

theorem pointed_positional {n : Nat} {exponent : Int} (fraction : exponent < 0) :
    Pointed (Decimal.positional ⟨n, exponent⟩) ⟨n, exponent⟩ := by
  have whole := whole_toDigits n
  obtain ⟨places, rfl⟩ : ∃ places : Nat, exponent = -places := ⟨(-exponent).toNat, by omega⟩
  unfold Decimal.positional
  simp only [neg_neg, Int.toNat_natCast]
  rw [if_neg (by omega)]
  split_ifs with inside
  · refine .of (whole_take whole (by omega) (by omega)) ?_ ?_ ?_ ?_
    · rw [← List.length_pos_iff, List.length_drop]
      omega
    · exact fun c member => whole.digits c (List.mem_of_mem_drop member)
    · rw [List.take_append_drop, Decimal.natOfDigits_toDigits]
    · rw [List.length_drop]
      omega
  · have zero : Whole ['0'] := ⟨by decide, digits_zeros 1, fun _ => rfl⟩
    refine .of zero ?_ ?_ (Decimal.natOfDigits_zeros _ _) ?_
    · exact List.append_ne_nil_of_right_ne_nil _ whole.nonempty
    · intro c member
      rcases List.mem_append.mp member with inside | inside
      · exact digits_zeros _ c inside
      · exact whole.digits c inside
    · change (List.replicate _ '0' ++ Nat.toDigits 10 n).length = places
      rw [List.length_append, List.length_replicate]
      omega

section

open Binary64

variable {x : Float}

theorem exists_hasBits_toFloat (d : Decimal) :
    ∃ n, ∀ negative, HasBits (d.toFloat negative) (signOf negative) n := by
  unfold Decimal.toFloat
  split_ifs
  · exact ⟨_, fun negative => hasBits_ofRatio negative 0 1⟩
  · exact ⟨_, fun negative => hasBits_infinity negative⟩
  · exact ⟨_, fun negative => hasBits_ofRatio negative 0 1⟩
  · exact ⟨_, fun negative => hasBits_ofRatio negative _ _⟩

/-- A decimal that stands for the magnitude of a number stands for the number with its sign. -/
theorem toFloat_isNegative {d : Decimal} (finite : x.isFinite = true)
    (back : d.toFloat false = x.abs) : d.toFloat (isNegative x) = x := by
  obtain ⟨s, e, f, has⟩ := HasFields.of_isFinite finite
  obtain ⟨n, bits⟩ := exists_hasBits_toFloat d
  have magnitude : n = e.toNat * 2 ^ 52 + f.toNat :=
    Nat.add_left_cancel ((back ▸ bits false).bits.symm.trans has.abs.hasBits.bits)
  have resigned := bits (isNegative x)
  rw [signOf_isNegative has.hasBits, magnitude] at resigned
  exact resigned.unique has.hasBits

theorem toFloat_zero (finite : x.isFinite = true) (zero : significand x = 0) :
    Decimal.toFloat false ⟨0, 0⟩ = x.abs := by
  obtain ⟨s, e, f, has⟩ := HasFields.of_isFinite finite
  obtain ⟨rfl, rfl⟩ := has.zero_of_significand zero
  exact (hasBits_ofRatio false 0 1).unique has.abs.hasBits

/-- The text of a finite number is a minus sign or none and digits, which with a point among them
stand for its magnitude. -/
theorem pointed_text (finite : x.isFinite = true) : ∃ cs d,
    Shortest.text x = signed (isNegative x) cs ∧ Pointed (withPoint cs) d ∧
      d.toFloat false = x.abs := by
  obtain ⟨s, e, f, has⟩ := HasFields.of_isFinite finite
  have notNan : x.isNaN = false := has.isNaN
  have notInf : x.isInf = false := has.isInf
  by_cases zero : significand x = 0
  · refine ⟨['0'], ⟨10 * 0, -1⟩, ?_, pointed_digits 0, ?_⟩
    · unfold Shortest.text
      rw [notNan, notInf, if_pos zero]
      rfl
    · exact (toFloat_tenfold 0).trans (toFloat_zero finite zero)
  · obtain ⟨back, fraction⟩ := Shortest.toFloat_decimal finite zero
    have shown : Shortest.text x = signed (isNegative x) (Shortest.decimal x).positional := by
      unfold Shortest.text
      rw [notNan, notInf, if_neg zero]
      rfl
    generalize Shortest.decimal x = d at back fraction shown
    obtain ⟨n, exponent⟩ := d
    rcases Int.lt_or_eq_of_le fraction with less | rfl
    · have pointed := @pointed_positional n _ less
      exact ⟨_, _, shown, (withPoint_pointed pointed).symm ▸ pointed, back⟩
    · have digits : Decimal.positional ⟨n, 0⟩ = Nat.toDigits 10 n := rfl
      exact ⟨_, _, shown, digits ▸ pointed_digits n, (toFloat_tenfold n).trans back⟩

/-- What begins with a digit or a minus sign is no word. -/
theorem signed_ne_word {negative : Bool} {ds rest word : List Char} {c : Char} (nonempty : ds ≠ [])
    (digits : Digits ds) (letter : isDigit c = false) (sign : c ≠ '-') :
    signed negative (ds ++ rest) ≠ c :: word := by
  cases negative with
  | false => exact ne_word nonempty digits letter
  | true => exact fun same => sign (List.cons.inj same).1.symm

/-- A number that is written with a point is read as a float. -/
theorem scalar?_pointed {cs : List Char} {d : Decimal} {negative : Bool} {x : Number}
    (p : Pointed cs d) (finite : finite? (d.toFloat negative) = some x) :
    scalar? (signed negative cs) = some (.float x) := by
  have integer := integer?_pointed p negative
  have float := float?_pointed p negative
  obtain @⟨whole, fraction, isWhole, -, -⟩ := p
  have notTrue : signed negative (whole ++ '.' :: fraction) ≠ "true".toList :=
    signed_ne_word isWhole.nonempty isWhole.digits (by decide) (by decide)
  have notFalse : signed negative (whole ++ '.' :: fraction) ≠ "false".toList :=
    signed_ne_word isWhole.nonempty isWhole.digits (by decide) (by decide)
  unfold scalar?
  rw [if_neg notTrue, if_neg notFalse, integer, float, finite]

theorem scalar?_writeInt {n : Int} {cs : List Char} (written : writeInt? n = some cs) :
    scalar? cs = some (.int n) := by
  have integer := integer?_writeInt written
  unfold scalar?
  split_ifs with yes no
  · rw [yes] at integer
    cases integer
  · rw [no] at integer
    cases integer
  · rw [integer]

theorem writeFloat_finite {cs : List Char} (finite : x.isFinite = true)
    (shown : Shortest.text x = signed (isNegative x) cs) :
    writeFloat x = signed (isNegative x) (withPoint cs) := by
  obtain ⟨s, e, f, has⟩ := HasFields.of_isFinite finite
  unfold writeFloat withPoint
  rw [has.isNaN, has.isInf, shown]
  by_cases point : '.' ∈ cs
  · cases isNegative x <;> simp [signed, point]
  · cases isNegative x <;> simp [signed, point]

/-- The three forms of a float. -/
inductive FloatForm (x : Float) : List Char → Prop where
  | notANumber : x = Binary64.nan → FloatForm x "nan".toList
  | infinite {negative : Bool} : x = infinity negative → FloatForm x (signed negative "inf".toList)
  | finite {negative : Bool} {cs : List Char} {d : Decimal} : Pointed cs d →
      finite? (d.toFloat negative) = some (.float x) → FloatForm x (signed negative cs)

theorem floatForm (x : Float) : FloatForm x (writeFloat x) := by
  rcases float_cases x with notANumber | ⟨number, infinite⟩ | finite
  · have written : writeFloat x = "nan".toList := by
      unfold writeFloat
      rw [notANumber]
      rfl
    exact written ▸ .notANumber (eq_nan notANumber)
  · have written : writeFloat x = signed (isNegative x) "inf".toList := by
      unfold writeFloat Shortest.text
      rw [number, infinite]
      rfl
    exact written ▸ .infinite (eq_infinity infinite)
  · obtain ⟨cs, d, shown, pointed, back⟩ := pointed_text finite
    have value : finite? (d.toFloat (isNegative x)) = some (.float x) := by
      obtain ⟨s, e, f, has⟩ := HasFields.of_isFinite finite
      simp [toFloat_isNegative finite back, finite?, has.isInf]
    exact writeFloat_finite finite shown ▸ .finite pointed value

theorem FloatForm.scalar? {cs : List Char} (form : FloatForm x cs) :
    scalar? cs = some (.float (.float x)) := by
  cases form with
  | notANumber same =>
      subst same
      rfl
  | @infinite negative same =>
      subst same
      cases negative <;> rfl
  | finite pointed value => exact scalar?_pointed pointed value

end

end FractalBreeder.Toml
