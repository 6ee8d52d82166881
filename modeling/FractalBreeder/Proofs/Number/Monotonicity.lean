import FractalBreeder.Proofs.Number.Rounding
import Mathlib.Tactic.Linarith

/-!
Rounding keeps the order: a larger quotient never has smaller bits. What follows says it for
rational numbers with a sign, whose rounded bits are counted from zero in both directions.
-/
namespace FractalBreeder.Binary64

theorem roundHalfEven_bounds (num den : Nat) :
    num / den ≤ roundHalfEven num den ∧ roundHalfEven num den ≤ num / den + 1 := by
  simp only [roundHalfEven]
  split_ifs <;> omega

theorem roundHalfEven_mono {a b c d : Nat} (bPositive : 0 < b) (dPositive : 0 < d)
    (le : a * d ≤ c * b) : roundHalfEven a b ≤ roundHalfEven c d := by
  have quotients : a / b ≤ c / d := by
    rw [Nat.le_div_iff_mul_le dPositive]
    refine Nat.le_of_mul_le_mul_right ?_ bPositive
    calc a / b * d * b = a / b * b * d := by ring
      _ ≤ a * d := Nat.mul_le_mul_right d (Nat.div_mul_le_self a b)
      _ ≤ c * b := le
  rcases Nat.lt_or_eq_of_le quotients with less | same
  · have upper := (roundHalfEven_bounds a b).2
    have lower := (roundHalfEven_bounds c d).1
    omega
  · -- with equal quotients the remainders decide, each against half of its divisor
    have rests : a % b * d ≤ c % d * b := by
      have left := Nat.div_add_mod a b
      have right := Nat.div_add_mod c d
      rw [same] at left
      nlinarith
    have halves : b ≤ 2 * (a % b) → d ≤ 2 * (c % d) := by
      intro reached
      nlinarith
    have more : b < 2 * (a % b) → d < 2 * (c % d) := by
      intro passed
      nlinarith
    simp only [roundHalfEven, same]
    split_ifs <;> omega

/-- The exponent of the last place of a positive number. -/
structure Place (q : ℚ) (e : Int) : Prop where
  low : -1074 ≤ e
  below : q < 2 ^ (e + 53)
  full : 2 ^ (e + 52) ≤ q ∨ e = -1074

namespace Place

variable {q q' : ℚ} {e e' : Int}

theorem le_of_le (place : Place q e) (place' : Place q' e') (le : q ≤ q') : e ≤ e' := by
  rcases place.full with full | least
  · have less : (2 : ℚ) ^ (e + 52) < 2 ^ (e' + 53) := full.trans_lt (le.trans_lt place'.below)
    have := (zpow_lt_zpow_iff_right₀ (by norm_num : (1 : ℚ) < 2)).mp less
    omega
  · exact least ▸ place'.low

theorem unique (place : Place q e) (place' : Place q e') : e = e' :=
  le_antisymm (place.le_of_le place' le_rfl) (place'.le_of_le place le_rfl)

/-- A number in units of its last place has at most 53 bits. -/
theorem round_le (place : Place q e) {a b : Nat} (bPositive : 0 < b)
    (units : (a : ℚ) / b = q / 2 ^ e) : roundHalfEven a b ≤ 2 ^ 53 := by
  have castB : (0 : ℚ) < b := Nat.cast_pos.mpr bPositive
  have less : (a : ℚ) / b < 2 ^ (53 : Int) := by
    rw [units, div_lt_iff₀ (by positivity), ← zpow_add₀ (by norm_num), add_comm]
    exact place.below
  have less : a / b < 2 ^ 53 := by
    rw [Nat.div_lt_iff_lt_mul bPositive]
    rw [div_lt_iff₀ castB] at less
    exact_mod_cast less
  have upper := (roundHalfEven_bounds a b).2
  omega

/-- It has all of them unless the smallest exponent is reached. -/
theorem le_round (place : Place q e) {a b : Nat} (bPositive : 0 < b)
    (units : (a : ℚ) / b = q / 2 ^ e) : 2 ^ 52 ≤ roundHalfEven a b ∨ e = -1074 := by
  refine place.full.imp_left fun full => ?_
  have castB : (0 : ℚ) < b := Nat.cast_pos.mpr bPositive
  have reached : (2 : ℚ) ^ (52 : Int) ≤ (a : ℚ) / b := by
    rw [units, le_div_iff₀ (by positivity), ← zpow_add₀ (by norm_num), add_comm]
    exact full
  have reached : 2 ^ 52 ≤ a / b := by
    rw [Nat.le_div_iff_mul_le bPositive]
    rw [le_div_iff₀ castB] at reached
    exact_mod_cast reached
  exact reached.trans (roundHalfEven_bounds a b).1

end Place

theorem place_lastPlace {num den : Nat} (numPositive : 0 < num) (denPositive : 0 < den) :
    Place (num / den) (lastPlace num den) := by
  have grows : ∀ {m n : Int}, m ≤ n → (2 : ℚ) ^ m ≤ 2 ^ n :=
    fun le => zpow_le_zpow_right₀ (by norm_num) le
  rcases lastPlace_spec numPositive denPositive with ⟨place, isMax, low, high⟩
  rw [isMax]
  refine ⟨by omega, high.trans_le (grows (by omega)), ?_⟩
  rcases le_total place (-1074) with least | most
  · exact .inr (by omega)
  · exact .inl ((grows (by omega)).trans low)

/-- The bits of a quotient, from its last place and the quotient in units of it. -/
theorem magnitudeBits_of_place {num den a b : Nat} {e : Int} (numPositive : 0 < num)
    (denPositive : 0 < den) (place : Place (num / den) e) (bPositive : 0 < b)
    (units : (a : ℚ) / b = num / den / 2 ^ e) :
    magnitudeBits num den =
      min 0x7ff0000000000000 ((e + 1074).toNat * 2 ^ 52 + roundHalfEven a b) := by
  have last : lastPlace num den = e := (place_lastPlace numPositive denPositive).unique place
  rcases @scaleDown_spec num den e denPositive with ⟨scaledPositive, scaled⟩
  have castB : (0 : ℚ) < b := Nat.cast_pos.mpr bPositive
  have castScaled : (0 : ℚ) < (scaleDown num den e).2 := Nat.cast_pos.mpr scaledPositive
  have same : (scaleDown num den e).1 * b = a * (scaleDown num den e).2 := by
    have ratios := scaled.trans units.symm
    rw [div_eq_div_iff castScaled.ne' castB.ne'] at ratios
    exact_mod_cast ratios
  have rounds : roundHalfEven (scaleDown num den e).1 (scaleDown num den e).2 =
      roundHalfEven a b :=
    le_antisymm (roundHalfEven_mono scaledPositive bPositive same.le)
      (roundHalfEven_mono bPositive scaledPositive same.ge)
  unfold magnitudeBits
  rw [if_neg numPositive.ne']
  simp only [last, rounds, Nat.shiftLeft_eq]

theorem magnitudeBits_mono {num den num' den' : Nat} (denPositive : 0 < den)
    (denPositive' : 0 < den') (le : (num : ℚ) / den ≤ num' / den') :
    magnitudeBits num den ≤ magnitudeBits num' den' := by
  have castDen : (0 : ℚ) < den := Nat.cast_pos.mpr denPositive
  have castDen' : (0 : ℚ) < den' := Nat.cast_pos.mpr denPositive'
  rcases Nat.eq_zero_or_pos num with rfl | numPositive
  · simp [magnitudeBits]
  have numPositive' : 0 < num' := by
    have positive : (0 : ℚ) < num' / den' :=
      lt_of_lt_of_le (div_pos (Nat.cast_pos.mpr numPositive) castDen) le
    refine Nat.pos_of_ne_zero fun zero => ?_
    simp [zero] at positive
  have place := place_lastPlace numPositive denPositive
  have place' := place_lastPlace numPositive' denPositive'
  have exponents := place.le_of_le place' le
  rcases @scaleDown_spec num den (lastPlace num den) denPositive with ⟨positive, scaled⟩
  rcases @scaleDown_spec num' den' (lastPlace num' den') denPositive' with ⟨positive', scaled'⟩
  rw [magnitudeBits_of_place numPositive denPositive place positive scaled,
    magnitudeBits_of_place numPositive' denPositive' place' positive' scaled']
  refine min_le_min_left _ ?_
  rcases exponents.lt_or_eq with less | same
  · -- the smaller number ends where the next exponent begins
    have upper := place.round_le positive scaled
    have lower := place'.le_round positive' scaled'
    have low := place.low
    omega
  · rw [same] at positive scaled ⊢
    refine Nat.add_le_add_left (roundHalfEven_mono positive positive' ?_) _
    have castScaled : (0 : ℚ) < (scaleDown num den (lastPlace num' den')).2 :=
      Nat.cast_pos.mpr positive
    have castScaled' : (0 : ℚ) < (scaleDown num' den' (lastPlace num' den')).2 :=
      Nat.cast_pos.mpr positive'
    have ratios := div_le_div_of_nonneg_right le
      (by positivity : (0 : ℚ) ≤ 2 ^ lastPlace num' den')
    rw [← scaled, ← scaled', div_le_div_iff₀ castScaled castScaled'] at ratios
    exact_mod_cast ratios

theorem magnitudeBits_congr {num den num' den' : Nat} (denPositive : 0 < den)
    (denPositive' : 0 < den') (same : (num : ℚ) / den = num' / den') :
    magnitudeBits num den = magnitudeBits num' den' :=
  le_antisymm (magnitudeBits_mono denPositive denPositive' same.le)
    (magnitudeBits_mono denPositive' denPositive same.ge)

/-- The bits of the number nearest to `q`, counted from zero upwards for positive numbers and
downwards for negative ones. -/
def rounded (q : ℚ) : Int :=
  if q < 0 then -(magnitudeBits q.num.natAbs q.den : Int) else magnitudeBits q.num.natAbs q.den

theorem natAbs_num_div_den {q : ℚ} (nonneg : 0 ≤ q) : ((q.num.natAbs : ℕ) : ℚ) / q.den = q := by
  rw [← Int.cast_natCast, Int.natCast_natAbs, abs_of_nonneg (Rat.num_nonneg.mpr nonneg),
    Rat.num_div_den]

theorem rounded_of_nonneg {q : ℚ} (nonneg : 0 ≤ q) {num den : Nat} (denPositive : 0 < den)
    (same : (num : ℚ) / den = q) : rounded q = magnitudeBits num den := by
  rw [rounded, if_neg (not_lt.mpr nonneg)]
  refine congrArg _ (magnitudeBits_congr q.den_pos denPositive ?_)
  rw [natAbs_num_div_den nonneg, same]

@[simp] theorem rounded_zero : rounded 0 = 0 := by
  simp [rounded, magnitudeBits]

theorem rounded_neg (q : ℚ) : rounded (-q) = -rounded q := by
  rcases lt_trichotomy q 0 with negative | rfl | positive
  · simp [rounded, negative, negative.le]
  · simp
  · simp [rounded, positive, positive.le]

theorem rounded_nonneg {q : ℚ} (nonneg : 0 ≤ q) : 0 ≤ rounded q := by
  simp [rounded, not_lt.mpr nonneg]

theorem rounded_mono {q q' : ℚ} (le : q ≤ q') : rounded q ≤ rounded q' := by
  have keeps : ∀ {p p' : ℚ}, 0 ≤ p → p ≤ p' → rounded p ≤ rounded p' := by
    intro p p' nonneg le
    have value := natAbs_num_div_den nonneg
    have value' := natAbs_num_div_den (nonneg.trans le)
    rw [rounded_of_nonneg nonneg p.den_pos value,
      rounded_of_nonneg (nonneg.trans le) p'.den_pos value']
    exact_mod_cast magnitudeBits_mono p.den_pos p'.den_pos (by rwa [value, value'])
  rcases le_total 0 q with nonneg | nonpos
  · exact keeps nonneg le
  · rcases le_total 0 q' with nonneg' | nonpos'
    · calc rounded q = -rounded (-q) := by rw [rounded_neg, neg_neg]
        _ ≤ 0 := neg_nonpos.mpr (rounded_nonneg (neg_nonneg.mpr nonpos))
        _ ≤ rounded q' := rounded_nonneg nonneg'
    · have mirrored := keeps (neg_nonneg.mpr nonpos') (neg_le_neg le)
      rw [rounded_neg, rounded_neg] at mirrored
      omega

end FractalBreeder.Binary64
