import FractalBreeder.Proofs.Number.Bits
import Mathlib.Algebra.Order.Field.Power
import Mathlib.Data.Rat.Cast.Order
import Mathlib.Tactic.FieldSimp
import Mathlib.Tactic.Ring

/-!
Rounding a quotient that is a binary64 number gives that number.
-/
namespace FractalBreeder.Binary64

theorem scaleDown_spec {num den : Nat} {e : Int} (positive : 0 < den) :
    0 < (scaleDown num den e).2 ∧
      ((scaleDown num den e).1 : ℚ) / (scaleDown num den e).2 = num / den / 2 ^ e := by
  have two : (2 : ℚ) ≠ 0 := by norm_num
  have nonzero : (den : ℚ) ≠ 0 := Nat.cast_ne_zero.mpr positive.ne'
  have powers : (2 : ℚ) ^ e = 2 ^ e.toNat / 2 ^ (-e).toNat := by
    rw [← zpow_natCast, ← zpow_natCast, ← zpow_sub₀ two]
    congr 1
    omega
  simp only [scaleDown, Nat.shiftLeft_eq]
  constructor
  · exact Nat.mul_pos positive (Nat.two_pow_pos _)
  · rw [powers]
    push_cast
    field_simp

theorem log2_bounds {n : Nat} (positive : 0 < n) :
    (2 : ℚ) ^ (n.log2 : Int) ≤ n ∧ (n : ℚ) < 2 ^ ((n.log2 : Int) + 1) := by
  constructor
  · rw [zpow_natCast]
    exact_mod_cast Nat.log2_self_le (by omega)
  · have above : n < 2 ^ (n.log2 + 1) := Nat.lt_log2_self
    exact_mod_cast above

/-- The exponent of the last place lies 52 below that of the leading bit. -/
theorem lastPlace_spec {num den : Nat} (numPositive : 0 < num) (denPositive : 0 < den) :
    ∃ place : Int, lastPlace num den = max (-1074) place ∧
      (2 : ℚ) ^ (place + 52) ≤ num / den ∧ (num : ℚ) / den < 2 ^ (place + 53) := by
  have two : (2 : ℚ) ≠ 0 := by norm_num
  have castDen : (0 : ℚ) < den := Nat.cast_pos.mpr denPositive
  rcases log2_bounds numPositive with ⟨numLow, numHigh⟩
  rcases log2_bounds denPositive with ⟨denLow, denHigh⟩
  let guess : Int := (num.log2 : Int) - den.log2 - 52
  -- the quotient lies within one bit of the guess, on either side
  have low : (2 : ℚ) ^ (guess + 51) ≤ num / den := by
    rw [le_div_iff₀ castDen]
    calc (2 : ℚ) ^ (guess + 51) * den
        ≤ 2 ^ (guess + 51) * 2 ^ ((den.log2 : Int) + 1) := by gcongr
      _ = 2 ^ (num.log2 : Int) := by
          rw [← zpow_add₀ two]
          congr 1
          omega
      _ ≤ num := numLow
  have high : (num : ℚ) / den < 2 ^ (guess + 53) := by
    rw [div_lt_iff₀ castDen]
    calc (num : ℚ) < 2 ^ ((num.log2 : Int) + 1) := numHigh
      _ = 2 ^ (guess + 53) * 2 ^ (den.log2 : Int) := by
          rw [← zpow_add₀ two]
          congr 1
          omega
      _ ≤ 2 ^ (guess + 53) * den := by gcongr
  rcases @scaleDown_spec num den guess denPositive with ⟨scaledPositive, scaled⟩
  have compare : (scaleDown num den guess).1 < (scaleDown num den guess).2 <<< 52 ↔
      (num : ℚ) / den < 2 ^ (guess + 52) := by
    have castScaled : (0 : ℚ) < (scaleDown num den guess).2 := Nat.cast_pos.mpr scaledPositive
    rw [zpow_add₀ two, ← div_lt_iff₀' (by positivity), ← scaled, div_lt_iff₀ castScaled,
      Nat.shiftLeft_eq]
    norm_cast
    rw [Nat.mul_comm]
  by_cases less : (scaleDown num den guess).1 < (scaleDown num den guess).2 <<< 52
  · refine ⟨guess - 1, ?_, ?_, ?_⟩
    · simp only [lastPlace]
      rw [if_pos less]
    · exact (by ring : guess - 1 + 52 = guess + 51) ▸ low
    · exact (by ring : guess - 1 + 53 = guess + 52) ▸ compare.mp less
  · refine ⟨guess, ?_, ?_, high⟩
    · simp only [lastPlace]
      rw [if_neg less]
    · exact not_lt.mp (fun below => less (compare.mpr below))

/-- A significand below 53 bits has the smallest exponent, so that no number has two forms. -/
structure Canonical (m : Nat) (q : Int) : Prop where
  short : m < 2 ^ 53
  low : -1074 ≤ q
  normal : 2 ^ 52 ≤ m ∨ q = -1074

theorem lastPlace_of_canonical {num den m : Nat} {q : Int} (canonical : Canonical m q)
    (numPositive : 0 < num) (denPositive : 0 < den) (same : (num : ℚ) / den = m * 2 ^ q) :
    lastPlace num den = q := by
  have two : (2 : ℚ) ≠ 0 := by norm_num
  have one : (1 : ℚ) < 2 := by norm_num
  rcases lastPlace_spec numPositive denPositive with ⟨place, isMax, low, high⟩
  rw [same] at low high
  have below : (m : ℚ) * 2 ^ q < 2 ^ (q + 53) := by
    rw [zpow_add₀ two, mul_comm ((2 : ℚ) ^ q)]
    have short : (m : ℚ) < 2 ^ (53 : Int) := by exact_mod_cast canonical.short
    gcongr
  have upper : place + 52 < q + 53 := (zpow_lt_zpow_iff_right₀ one).mp (low.trans_lt below)
  have minimal := canonical.low
  rcases canonical.normal with full | least
  · have above : (2 : ℚ) ^ (q + 52) ≤ m * 2 ^ q := by
      rw [zpow_add₀ two, mul_comm ((2 : ℚ) ^ q)]
      have long : (2 : ℚ) ^ (52 : Int) ≤ m := by exact_mod_cast full
      gcongr
    have lower : q + 52 < place + 53 := (zpow_lt_zpow_iff_right₀ one).mp (above.trans_lt high)
    omega
  · omega

theorem roundHalfEven_mul {den : Nat} (m : Nat) (positive : 0 < den) :
    roundHalfEven (m * den) den = m := by
  simp only [roundHalfEven, Nat.mul_mod_left, Nat.mul_zero, Nat.mul_div_cancel m positive,
    if_pos positive]

theorem magnitudeBits_of_canonical {num den m : Nat} {q : Int} (canonical : Canonical m q)
    (numPositive : 0 < num) (denPositive : 0 < den) (same : (num : ℚ) / den = m * 2 ^ q) :
    magnitudeBits num den = min 0x7ff0000000000000 ((q + 1074).toNat * 2 ^ 52 + m) := by
  have place := lastPlace_of_canonical canonical numPositive denPositive same
  rcases @scaleDown_spec num den q denPositive with ⟨scaledPositive, scaled⟩
  have castScaled : ((scaleDown num den q).2 : ℚ) ≠ 0 := Nat.cast_ne_zero.mpr scaledPositive.ne'
  have exact : (scaleDown num den q).1 = m * (scaleDown num den q).2 := by
    rw [same, mul_div_assoc, div_self (by positivity), mul_one, div_eq_iff castScaled] at scaled
    exact_mod_cast scaled
  unfold magnitudeBits
  rw [if_neg numPositive.ne']
  simp only [place, exact, roundHalfEven_mul m scaledPositive, Nat.shiftLeft_eq]

namespace HasFields

open Float.Model.UnpackedFloat

variable {x : Float} {s : Sign} {e : BitVec 11} {f : BitVec 52}

theorem significand_eq (has : HasFields x s e f) :
    significand x = if e.toNat = 0 then f.toNat else f.toNat + 2 ^ 52 := by
  unfold significand
  rw [has.biased, has.fraction]
  rfl

theorem exponent_eq (has : HasFields x s e f) :
    exponent x = if e.toNat = 0 then -1074 else (e.toNat : Int) - 1075 := by
  unfold exponent
  rw [has.biased]

theorem zero_of_significand (has : HasFields x s e f) (zero : significand x = 0) :
    e = 0#11 ∧ f = 0#52 := by
  rw [has.significand_eq] at zero
  by_cases small : e.toNat = 0
  · rw [if_pos small] at zero
    exact ⟨BitVec.eq_of_toNat_eq small, BitVec.eq_of_toNat_eq zero⟩
  · rw [if_neg small] at zero
    omega

theorem canonical (has : HasFields x s e f) : Canonical (significand x) (exponent x) := by
  have limit := f.isLt
  rw [has.significand_eq, has.exponent_eq]
  split_ifs
  · exact ⟨by omega, by omega, .inr rfl⟩
  · exact ⟨by omega, by omega, .inl (by omega)⟩

theorem bits_of_significand (has : HasFields x s e f) :
    (exponent x + 1074).toNat * 2 ^ 52 + significand x = e.toNat * 2 ^ 52 + f.toNat := by
  rw [has.significand_eq, has.exponent_eq]
  by_cases zero : e.toNat = 0
  · rw [if_pos zero, if_pos zero, zero]
    rfl
  · have shifted : ((e.toNat : Int) - 1075 + 1074).toNat = e.toNat - 1 := by omega
    rw [if_neg zero, if_neg zero, shifted]
    omega

theorem below_infinity (has : HasFields x s e f) :
    e.toNat * 2 ^ 52 + f.toNat < 0x7ff0000000000000 := by
  have limit := e.isLt
  have fraction := f.isLt
  have limited : e.toNat ≠ 2047 := fun same => has.finite (BitVec.eq_of_toNat_eq same)
  omega

theorem ofRatio_eq {num den : Nat} (has : HasFields x .positive e f) (numPositive : 0 < num)
    (denPositive : 0 < den) (same : (num : ℚ) / den = significand x * 2 ^ exponent x) :
    ofRatio false num den = x := by
  have below := has.below_infinity
  have magnitude := magnitudeBits_of_canonical has.canonical numPositive denPositive same
  rw [has.bits_of_significand, Nat.min_eq_right (Nat.le_of_lt below)] at magnitude
  have word : UInt64.ofNat (0 + (e.toNat * 2 ^ 52 + f.toNat)) =
      UInt64.ofBitVec (fields .positive e f) := by
    apply UInt64.toNat_inj.mp
    change _ = (fields .positive e f).toNat
    rw [toNat_fields, UInt64.toNat_ofNat']
    change _ = 0 * 2 ^ 63 + _ + _
    omega
  unfold ofRatio
  simp only [Bool.false_eq_true, ↓reduceIte, magnitude]
  rw [word]
  exact (HasFields.ofBits .positive e f has.finite).unique has

end HasFields

end FractalBreeder.Binary64
