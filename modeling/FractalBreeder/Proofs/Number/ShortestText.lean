import FractalBreeder.Proofs.Expr.Literal
import FractalBreeder.Proofs.Number.Rounding

/-!
The text of a finite number is a literal, behind a minus sign where the number has one, and reads
back to the same number.
-/
namespace FractalBreeder

namespace Decimal

open Literal (Mantissa Digits)

theorem natOfDigits_eq (cs : List Char) : natOfDigits cs = Nat.ofDigitChars 10 cs 0 := by
  rw [Nat.ofDigitChars_eq_foldl]
  rfl

theorem digits_toDigits (n : Nat) : Digits (Nat.toDigits 10 n) := by
  intro c member
  have digit : c.isDigit = true := Nat.isDigit_of_mem_toDigits (by decide) (by decide) member
  exact digit

theorem natOfDigits_toDigits (n : Nat) : natOfDigits (Nat.toDigits 10 n) = n := by
  rw [natOfDigits_eq, Nat.ofDigitChars_ten_toDigits]

theorem natOfDigits_zeros (count n : Nat) :
    natOfDigits ('0' :: List.replicate count '0' ++ Nat.toDigits 10 n) = n := by
  rw [natOfDigits_eq, ← List.replicate_succ, Nat.ofDigitChars_append,
    Nat.ofDigitChars_replicate_zero, Nat.mul_zero, Nat.ofDigitChars_ten_toDigits]

theorem mantissa_pointed {whole fraction : List Char} {n places : Nat}
    (nonempty : whole ++ fraction ≠ []) (digits : Digits (whole ++ fraction))
    (value : natOfDigits (whole ++ fraction) = n) (counted : fraction.length = places) :
    Mantissa (whole ++ '.' :: fraction) n places := by
  subst value counted
  exact .pointed nonempty (fun c member => digits c (List.mem_append_left _ member))
    (fun c member => digits c (List.mem_append_right _ member))

theorem mantissa_positional (d : Decimal) :
    Mantissa d.positional d.coefficient (-d.exponent).toNat := by
  have digits := digits_toDigits d.coefficient
  have nonempty : Nat.toDigits 10 d.coefficient ≠ [] := Nat.toDigits_ne_nil
  have value := natOfDigits_toDigits d.coefficient
  unfold positional
  simp only
  split_ifs with whole inside
  · have mantissa := Mantissa.whole nonempty digits
    rw [value] at mantissa
    rw [whole]
    exact mantissa
  · apply mantissa_pointed
    · rwa [List.take_append_drop]
    · rwa [List.take_append_drop]
    · rwa [List.take_append_drop]
    · rw [List.length_drop]
      omega
  · change Mantissa (['0'] ++ '.' :: (List.replicate _ '0' ++ Nat.toDigits 10 d.coefficient)) _ _
    apply mantissa_pointed
    · simp
    · intro c member
      change c ∈ '0' :: (List.replicate _ '0' ++ Nat.toDigits 10 d.coefficient) at member
      rcases List.mem_cons.mp member with rfl | inside
      · decide
      · rcases List.mem_append.mp inside with zero | digit
        · rw [(List.mem_replicate.mp zero).2]
          decide
        · exact digits c digit
    · exact natOfDigits_zeros _ _
    · rw [List.length_append, List.length_replicate]
      omega

theorem exponent_trim {d : Decimal} (count : Nat) (fraction : d.exponent ≤ 0) :
    (trim count d).exponent ≤ 0 := by
  induction count generalizing d with
  | zero => exact fraction
  | succ count ih =>
      unfold trim
      split
      · next dropped =>
          simp only [Bool.and_eq_true, decide_eq_true_eq] at dropped
          exact ih (Int.add_one_le_of_lt dropped.1)
      · exact fraction

theorem exponent_plain (d : Decimal) : d.plain.exponent ≤ 0 := by
  unfold plain
  split
  · exact Int.le_refl 0
  · exact exponent_trim _ (by omega)

theorem log2_five_pow (k : Nat) : 9 * (k / 4) ≤ (5 ^ k).log2 := by
  rw [Nat.le_log2 (Nat.pow_pos (by decide)).ne']
  calc 2 ^ (9 * (k / 4)) = (2 ^ 9) ^ (k / 4) := Nat.pow_mul 2 9 (k / 4)
    _ ≤ (5 ^ 4) ^ (k / 4) := Nat.pow_le_pow_left (by decide) _
    _ = 5 ^ (4 * (k / 4)) := (Nat.pow_mul 5 4 (k / 4)).symm
    _ ≤ 5 ^ k := Nat.pow_le_pow_right (by decide) (by omega)

theorem log2_le_of_le {a b : Nat} (positive : a ≠ 0) (le : a ≤ b) : a.log2 ≤ b.log2 :=
  (Nat.le_log2 (by omega)).mpr ((Nat.log2_self_le positive).trans le)

/-- A decimal that is neither too large nor too small is rounded as a quotient. -/
theorem toFloat_eq_ofRatio {coefficient : Nat} {exponent : Int} (nonzero : coefficient ≠ 0)
    (fraction : exponent ≤ 0)
    (large : -324 < exponent + ((coefficient.log2 + 1) / 3 + 1 : Nat)) :
    toFloat false ⟨coefficient, exponent⟩ =
      Binary64.ofRatio false coefficient (10 ^ (-exponent).toNat) := by
  have small : ¬ 310 < exponent := by omega
  unfold toFloat
  rw [if_neg nonzero, if_neg small, if_neg (Int.not_le.mpr large)]
  have zero : exponent.toNat = 0 := by omega
  simp [scale, zero]

end Decimal

namespace Shortest

open Binary64
open Literal (Mantissa)

theorem findSome_neighbour {x : Float} {d : Decimal}
    (found : (List.range' 1 17).findSome? (neighbour? x) = some d) :
    readsBack x d = true ∧ d.exponent ≤ 0 := by
  rcases List.exists_of_findSome?_eq_some found with ⟨count, _, isNeighbour⟩
  unfold neighbour? at isNeighbour
  simp only at isNeighbour
  refine ⟨List.find?_some isNeighbour, ?_⟩
  rcases List.mem_map.mp (List.mem_of_find?_eq_some isNeighbour) with ⟨d, _, rfl⟩
  exact d.exponent_plain

theorem exponent_exact (x : Float) : (exact x).exponent ≤ 0 := by
  unfold exact
  split
  · exact Int.le_refl 0
  · next negative => exact Int.le_of_lt (Int.not_le.mp negative)

theorem toFloat_exact {x : Float} (finite : x.isFinite = true) (nonzero : significand x ≠ 0) :
    (exact x).toFloat false = x.abs := by
  rcases HasFields.of_isFinite finite with ⟨s, e, f, has⟩
  have positive : 0 < significand x := Nat.pos_of_ne_zero nonzero
  have low := has.canonical.low
  have sameSignificand : significand x.abs = significand x :=
    has.abs.significand_eq.trans has.significand_eq.symm
  have sameExponent : exponent x.abs = exponent x :=
    has.abs.exponent_eq.trans has.exponent_eq.symm
  unfold exact
  split
  · next whole =>
      have shifted : 0 < significand x * 2 ^ (exponent x).toNat :=
        Nat.mul_pos positive (Nat.two_pow_pos _)
      have power : (2 : ℚ) ^ exponent x = 2 ^ (exponent x).toNat := by
        rw [← zpow_natCast, Int.toNat_of_nonneg whole]
      rw [Nat.shiftLeft_eq, Decimal.toFloat_eq_ofRatio shifted.ne' (Int.le_refl 0) (by omega)]
      apply has.abs.ofRatio_eq shifted Nat.one_pos
      rw [sameSignificand, sameExponent, power]
      simp
  · next fraction =>
      -- the exact fraction of 5 ^ k over 10 ^ k has enough digits to be rounded as a quotient
      have product : 0 < significand x * 5 ^ (-exponent x).toNat :=
        Nat.mul_pos positive (Nat.pow_pos (by decide))
      have digits : 9 * ((-exponent x).toNat / 4) ≤
          (significand x * 5 ^ (-exponent x).toNat).log2 :=
        (Decimal.log2_five_pow _).trans
          (Decimal.log2_le_of_le (Nat.pow_pos (by decide)).ne' (Nat.le_mul_of_pos_left _ positive))
      have power : (2 : ℚ) ^ exponent x = 1 / 2 ^ (-exponent x).toNat := by
        rw [← zpow_natCast, Int.toNat_of_nonneg (by omega), zpow_neg, one_div, inv_inv]
      have tens : (10 : ℚ) ^ (-exponent x).toNat =
          2 ^ (-exponent x).toNat * 5 ^ (-exponent x).toNat := by
        rw [← mul_pow]
        norm_num
      change Decimal.toFloat false ⟨significand x * 5 ^ (-exponent x).toNat, exponent x⟩ = _
      rw [Decimal.toFloat_eq_ofRatio product.ne' (by omega) (by omega)]
      apply has.abs.ofRatio_eq product (Nat.pow_pos (by decide))
      rw [sameSignificand, sameExponent, power]
      push_cast
      rw [tens]
      field_simp

theorem toFloat_decimal {x : Float} (finite : x.isFinite = true) (nonzero : significand x ≠ 0) :
    (decimal x).toFloat false = x.abs ∧ (decimal x).exponent ≤ 0 := by
  unfold decimal
  cases found : (List.range' 1 17).findSome? (neighbour? x) with
  | none => exact ⟨toFloat_exact finite nonzero, exponent_exact x⟩
  | some d =>
      rcases findSome_neighbour found with ⟨back, fraction⟩
      exact ⟨toBits_injective (beq_iff_eq.mp back), fraction⟩

theorem text_spec {x : Float} (finite : x.isFinite = true) :
    ∃ cs coefficient places, Mantissa cs coefficient places ∧
      Literal.value coefficient places 0 = x.abs ∧
      text x = if isNegative x then '-' :: cs else cs := by
  rcases HasFields.of_isFinite finite with ⟨s, e, f, has⟩
  have notNan : x.isNaN = false := has.isNaN
  have notInf : x.isInf = false := has.isInf
  unfold text
  simp only [notNan, notInf, Bool.false_eq_true, ↓reduceIte]
  by_cases zero : significand x = 0
  · refine ⟨['0'], 0, 0, ?_, ?_, by rw [if_pos zero]⟩
    · refine .whole (by decide) ?_
      intro c member
      rw [List.mem_singleton.mp member]
      decide
    · rcases has.zero_of_significand zero with ⟨rfl, rfl⟩
      have value : Literal.value 0 0 0 = Float.ofBits (UInt64.ofNat 0) := by
        simp [Literal.value, Decimal.toFloat, ofRatio, magnitudeBits]
      have word : UInt64.ofNat 0 = UInt64.ofBitVec (fields .positive 0#11 0#52) := by decide
      have plus := HasFields.ofBits .positive 0#11 0#52 has.finite
      rw [← word, ← value] at plus
      exact plus.unique has.abs
  · rcases toFloat_decimal finite zero with ⟨back, fraction⟩
    rw [if_neg zero]
    unfold digits
    generalize decimal x = d at back fraction
    rcases d with ⟨coefficient, exponent⟩
    refine ⟨_, coefficient, _, Decimal.mantissa_positional _, ?_, rfl⟩
    have places : (0 : Int) - ((-exponent).toNat : Int) = exponent := by
      have fraction : exponent ≤ 0 := fraction
      omega
    simp only [Literal.value, places]
    exact back

end Shortest

end FractalBreeder
