import Mathlib.Algebra.Order.Field.Basic
import Mathlib.Tactic.Linarith
import FractalBreeder.Proofs.Number.Arithmetic

/-!
Rounding goes to the nearest number: no other number is nearer to the exact result. The error is at
most half a unit in the last place, so in units of the smallest number it is at most a half, or it
is a small part of the result.
-/
namespace FractalBreeder.Binary64

open Float.Model.UnpackedFloat (Sign)

theorem roundHalfEven_error (num : Nat) {den : Nat} (positive : 0 < den) :
    |(roundHalfEven num den : ℚ) - num / den| ≤ 1 / 2 := by
  have castDen : (0 : ℚ) < den := Nat.cast_pos.mpr positive
  have whole : (num : ℚ) = den * (num / den : Nat) + (num % den : Nat) := by
    exact_mod_cast (Nat.div_add_mod num den).symm
  have exact : (num : ℚ) / den = (num / den : Nat) + (num % den : Nat) / den := by
    rw [whole]
    field_simp
  have nonneg : (0 : ℚ) ≤ (num % den : Nat) / den := by positivity
  rw [exact, abs_le]
  simp only [roundHalfEven]
  split_ifs with less more
  · have half : ((num % den : Nat) : ℚ) / den ≤ 1 / 2 := by
      rw [div_le_iff₀ castDen]
      have less : (2 : ℚ) * (num % den : Nat) < den := by exact_mod_cast less
      linarith
    constructor <;> linarith
  · have half : (1 : ℚ) / 2 ≤ (num % den : Nat) / den := by
      rw [le_div_iff₀ castDen]
      have more : (den : ℚ) < 2 * (num % den : Nat) := by exact_mod_cast more
      linarith
    have below : ((num % den : Nat) : ℚ) / den ≤ 1 := by
      rw [div_le_one castDen]
      exact_mod_cast (Nat.mod_lt num positive).le
    push_cast
    constructor <;> linarith
  · have half : ((num % den : Nat) : ℚ) / den = 1 / 2 := by
      have equal : 2 * (num % den) = den := by omega
      have equal : (2 : ℚ) * (num % den : Nat) = den := by exact_mod_cast equal
      rw [div_eq_iff castDen.ne']
      linarith
    have even : (num / den) % 2 = 0 ∨ (num / den) % 2 = 1 := Nat.mod_two_eq_zero_or_one _
    rcases even with even | odd
    · rw [even, half]
      push_cast
      constructor <;> linarith
    · rw [odd, half]
      push_cast
      constructor <;> linarith

variable {x y : Float} {q : ℚ}

/-- The bits of a number give its value. -/
theorem value_of_rank {m : Nat} {e : Int} (finite : x.isFinite = true) (canonical : Canonical m e)
    (bits : rank x = ((e + 1074).toNat * 2 ^ 52 + m : Nat)) : value x = m * 2 ^ e := by
  obtain ⟨s, e', f, has⟩ := HasFields.of_isFinite finite
  obtain ⟨short, low, normal⟩ := canonical
  obtain ⟨short', low', normal'⟩ := has.canonical
  rw [has.hasBits.rank_eq, ← has.bits_of_significand] at bits
  rw [has.value_eq]
  cases s with
  | positive =>
    simp only [Sign.apply] at bits
    obtain ⟨rfl, rfl⟩ : significand x = m ∧ exponent x = e := by omega
    simp [Sign.apply]
  | negative =>
    simp only [Sign.apply] at bits
    obtain ⟨zero, rfl⟩ : significand x = 0 ∧ m = 0 := by omega
    simp [zero]

/-- A positive result is rounded to a multiple of a power of two, with an error of at most half of
the power. -/
theorem IsRounded.exists_place (rounds : IsRounded x q) (finite : x.isFinite = true)
    (positive : 0 < q) :
    ∃ (e : Int) (k : Nat), Place q e ∧ value x = k * 2 ^ e ∧ |value x - q| ≤ 2 ^ e / 2 := by
  have quotient := natAbs_num_div_den positive.le
  have numPositive : 0 < q.num.natAbs := by
    have := Rat.num_pos.mpr positive
    omega
  have place := place_lastPlace numPositive q.den_pos
  generalize lastPlace q.num.natAbs q.den = e at place
  obtain ⟨scaled, units⟩ := @scaleDown_spec q.num.natAbs q.den e q.den_pos
  have bits := magnitudeBits_of_place numPositive q.den_pos place scaled units
  rw [quotient] at place units
  have upper := place.round_le scaled units
  have lower := place.le_round scaled units
  have error := roundHalfEven_error (scaleDown q.num.natAbs q.den e).1 scaled
  rw [units] at error
  generalize roundHalfEven (scaleDown q.num.natAbs q.den e).1 (scaleDown q.num.natAbs q.den e).2 = k
    at bits upper lower error
  have bound := rounds.isFinite_iff.mp finite
  have rank_eq := rounds.rank_eq
  rw [rounded_of_nonneg positive.le q.den_pos quotient, bits] at rank_eq bound
  rw [abs_of_nonneg (Int.natCast_nonneg _)] at bound
  have low := place.low
  have value_eq : value x = k * 2 ^ e := by
    rcases Nat.lt_or_eq_of_le upper with less | rfl
    · exact value_of_rank finite ⟨less, low, lower⟩ (by omega)
    · have carried := value_of_rank (m := 2 ^ 52) (e := e + 1) finite
        ⟨by omega, by omega, .inl le_rfl⟩ (by omega)
      rw [carried, zpow_add₀ (by norm_num)]
      push_cast
      ring
  refine ⟨e, k, place, value_eq, ?_⟩
  have power : (0 : ℚ) < 2 ^ e := by positivity
  have scale : value x - q = (k - q / 2 ^ e) * 2 ^ e := by
    rw [value_eq, sub_mul, div_mul_cancel₀ q power.ne']
  rw [scale, abs_mul, abs_of_pos power]
  linarith [mul_le_mul_of_nonneg_right error power.le]

theorem nearest_of_pos (rounds : IsRounded x q) (finite : x.isFinite = true)
    (finite' : y.isFinite = true) (positive : 0 < q) : |value x - q| ≤ |value y - q| := by
  obtain ⟨e, k, place, value_eq, error⟩ := rounds.exists_place finite positive
  have power : (0 : ℚ) < 2 ^ e := by positivity
  -- two different multiples are a whole power apart, and only one is nearer than half of it
  have multiple : ∀ j : Int, |value x - q| ≤ |j * 2 ^ e - q| := by
    intro j
    rcases eq_or_ne j k with rfl | other
    · rw [value_eq, Int.cast_natCast]
    · have apart : (1 : ℚ) ≤ |(j : ℚ) - k| := by
        have apart : 1 ≤ |j - (k : Int)| := Int.one_le_abs (sub_ne_zero.mpr other)
        exact_mod_cast apart
      have far : (2 : ℚ) ^ e ≤ |j * 2 ^ e - value x| := by
        rw [value_eq, ← sub_mul, abs_mul, abs_of_pos power]
        exact le_mul_of_one_le_left power.le apart
      have triangle := abs_sub_le ((j : ℚ) * 2 ^ e) q (value x)
      rw [abs_sub_comm q] at triangle
      linarith
  obtain ⟨s, e', f, has⟩ := HasFields.of_isFinite finite'
  rcases le_or_gt e (exponent y) with coarse | fine
  · have whole : value y =
        (s.apply 1 * (significand y * (2 ^ (exponent y - e).toNat : Nat)) : Int) * 2 ^ e := by
      rw [has.value_eq, zpow_eq_mul coarse]
      push_cast
      ring
    rw [whole]
    exact multiple _
  · -- such a number is below the smallest number with the place of `q`
    obtain ⟨short, low, -⟩ := has.canonical
    have full : (2 : ℚ) ^ (e + 52) ≤ q := place.full.resolve_right (by omega)
    have small : value y ≤ 2 ^ (e + 52) := by
      have magnitude : (significand y : ℚ) * 2 ^ exponent y ≤ 2 ^ (e + 52) := by
        calc (significand y : ℚ) * 2 ^ exponent y ≤ 2 ^ (53 : Int) * 2 ^ exponent y := by
              have short : (significand y : ℚ) ≤ 2 ^ (53 : Int) := by exact_mod_cast short.le
              gcongr
          _ = 2 ^ (53 + exponent y) := (zpow_add₀ (by norm_num) _ _).symm
          _ ≤ 2 ^ (e + 52) := zpow_le_zpow_right₀ (by norm_num) (by omega)
      have nonneg : (0 : ℚ) ≤ significand y * 2 ^ exponent y := by positivity
      rw [has.value_eq]
      cases s with
      | positive => simpa [Sign.apply] using magnitude
      | negative =>
        simp only [Sign.apply, Int.cast_neg, Int.cast_one]
        linarith
    have least := multiple (2 ^ 52)
    have same : ((2 ^ 52 : Int) : ℚ) * 2 ^ e = 2 ^ (e + 52) := by
      rw [add_comm, zpow_add₀ (by norm_num)]
      norm_num
    rw [same, abs_of_nonpos (show (2 : ℚ) ^ (e + 52) - q ≤ 0 by linarith)] at least
    rw [abs_of_nonpos (show value y - q ≤ 0 by linarith)]
    linarith

theorem isRounded_neg (rounds : IsRounded x q) (finite : x.isFinite = true) :
    IsRounded (-x) (-q) := by
  have own := isRounded_of_isFinite finite
  have mirrored := isRounded_of_isFinite (isFinite_neg finite)
  refine ⟨mirrored.number, ?_⟩
  rw [mirrored.rank_eq, value_neg finite, rounded_neg, rounded_neg, ← own.rank_eq, rounds.rank_eq]

/-- No number is nearer to the exact result than the rounded one. -/
theorem IsRounded.nearest (rounds : IsRounded x q) (finite : x.isFinite = true)
    (finite' : y.isFinite = true) : |value x - q| ≤ |value y - q| := by
  rcases lt_trichotomy q 0 with negative | rfl | positive
  · have mirrored := nearest_of_pos (isRounded_neg rounds finite) (isFinite_neg finite)
      (isFinite_neg finite') (neg_pos.mpr negative)
    rw [value_neg finite, value_neg finite', ← neg_sub', ← neg_sub', abs_neg, abs_neg] at mirrored
    exact mirrored
  · have zero : value x = 0 := by
      have clear : (0 : Float).isFinite = true := rfl
      have nothing : value 0 = 0 := by
        have none : significand 0 = 0 := rfl
        simp [value, none]
      rw [← nothing]
      refine value_eq_of_rank_eq finite clear ?_
      rw [rounds.rank_eq, rank_eq_rounded clear, nothing]
    simp [zero]
  · exact nearest_of_pos rounds finite finite' positive

/-- The smallest positive number. -/
def smallest : ℚ := 2 ^ (-1074 : Int)

theorem smallest_pos : 0 < smallest := zpow_pos (by norm_num) _

theorem exists_units (finite : x.isFinite = true) : ∃ n : Int, value x = n * smallest := by
  obtain ⟨s, e, f, has⟩ := HasFields.of_isFinite finite
  have scale : (2 : ℚ) ^ exponent x = smallest * (2 ^ (exponent x - -1074).toNat : Nat) :=
    zpow_eq_mul has.canonical.low
  refine ⟨s.apply 1 * (significand x * (2 ^ (exponent x - -1074).toNat : Nat)), ?_⟩
  rw [has.value_eq, scale]
  push_cast
  ring

/-- How far a rounded number may be off, in units of the smallest one. -/
def Near (n : Int) (p : ℚ) : Prop := |(n : ℚ) - p| ≤ 1 / 2 ∨ |(n : ℚ) - p| ≤ p / 2 ^ 53

theorem IsRounded.near {p : ℚ} (rounds : IsRounded x (p * smallest)) (finite : x.isFinite = true)
    (positive : 0 < p) : ∃ n : Int, value x = n * smallest ∧ Near n p := by
  obtain ⟨n, units⟩ := exists_units finite
  obtain ⟨e, k, place, -, error⟩ := rounds.exists_place finite (mul_pos positive smallest_pos)
  refine ⟨n, units, ?_⟩
  rw [units, ← sub_mul, abs_mul, abs_of_pos smallest_pos] at error
  rcases place.full with full | rfl
  · right
    have split : (2 : ℚ) ^ (e + 52) = 2 ^ e * 2 ^ 52 := zpow_add₀ (by norm_num) e 52
    have scaled : |(n : ℚ) - p| * smallest ≤ p / 2 ^ 53 * smallest := by linarith
    exact le_of_mul_le_mul_right scaled smallest_pos
  · left
    change _ ≤ smallest / 2 at error
    have scaled : |(n : ℚ) - p| * smallest ≤ 1 / 2 * smallest := by linarith
    exact le_of_mul_le_mul_right scaled smallest_pos

end FractalBreeder.Binary64
