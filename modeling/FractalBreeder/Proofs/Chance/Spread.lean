import FractalBreeder.Proofs.Chance.Ranges
import FractalBreeder.Proofs.Number.Nearest

/-!
How many numbers can be drawn from a range. If some number lies strictly between its ends then one
of the three quarters inside the range is drawn there, however the arithmetic rounds, and so there
are at least two numbers to draw. If there is none then every draw gives the same number.
-/
namespace FractalBreeder

open Binary64

namespace Draws

/-- What a word draws from a range, if it is below the upper end. -/
def drawn (low high : Float) (w : UInt64) : Float := fraction w * (high - low) + low

/-- The word whose fraction is so many quarters. -/
def quarters (k : Nat) : UInt64 := UInt64.ofNat k * 0x4000000000000000

theorem value_quarters {k : Nat} (inner : k ∈ [1, 2, 3]) :
    (fraction (quarters k)).isFinite = true ∧ value (fraction (quarters k)) = k / 4 := by
  simp only [List.mem_cons, List.not_mem_nil, or_false] at inner
  rcases inner with rfl | rfl | rfl
  · refine ⟨rfl, ?_⟩
    rw [value_of_parts (m := 4503599627370496) (e := -54) rfl rfl rfl]
    norm_num
  · refine ⟨rfl, ?_⟩
    rw [value_of_parts (m := 4503599627370496) (e := -53) rfl rfl rfl]
    norm_num
  · refine ⟨rfl, ?_⟩
    rw [value_of_parts (m := 6755399441055744) (e := -53) rfl rfl rfl]
    norm_num

section Arithmetic

theorem eq_of_near {n d : Int} (near : Near n d) (small : d ≤ 2 ^ 52) : n = d := by
  have small : (d : ℚ) ≤ 2 ^ 52 := by exact_mod_cast small
  have close : |(n : ℚ) - d| < 1 := by
    rcases near with half | part
    · linarith
    · have bound : (d : ℚ) / 2 ^ 53 ≤ 1 / 2 := by
        rw [div_le_iff₀ (by norm_num)]
        linarith
      linarith
  have whole : |n - d| < 1 := by exact_mod_cast close
  have zero := Int.abs_lt_one_iff.mp whole
  omega

theorem near_half {n : Int} {p : ℚ} (near : Near n p) (small : p ≤ 2 ^ 52) :
    |(n : ℚ) - p| ≤ 1 / 2 := by
  rcases near with half | part
  · exact half
  · have bound : p / 2 ^ 53 ≤ 1 / 2 := by
      rw [div_le_iff₀ (by norm_num)]
      linarith
    linarith

theorem near_part {n : Int} {p bound : ℚ} (near : Near n p) (le : p ≤ bound)
    (large : 2 ^ 52 ≤ bound) : |(n : ℚ) - p| ≤ bound / 64 := by
  rcases near with half | part
  · linarith
  · have small : p / 2 ^ 53 ≤ bound / 64 := by
      rw [div_le_div_iff₀ (by norm_num) (by norm_num)]
      linarith
    linarith

/-- Twice a quarter of a length, as it is rounded, is nearer to neither end than to a place `m`. -/
def Inside (n m s : Int) : Prop := m < 2 * s ∧ 2 * s < n + m

variable {n m a b c : Int}

theorem bounds_of_short {s k : Int} (near : |(s : ℚ) - k / 4 * n| ≤ 1 / 2) :
    k * n - 2 ≤ 4 * s ∧ 4 * s ≤ k * n + 2 := by
  obtain ⟨lower, upper⟩ := abs_le.mp near
  have lower : (k * n - 2 : ℚ) ≤ 4 * s := by linarith
  have upper : (4 * s : ℚ) ≤ k * n + 2 := by linarith
  exact ⟨by exact_mod_cast lower, by exact_mod_cast upper⟩

theorem inside_of_short (inside : 0 < m ∧ m < n) (first : |(a : ℚ) - 1 / 4 * n| ≤ 1 / 2)
    (second : |(b : ℚ) - 2 / 4 * n| ≤ 1 / 2) (third : |(c : ℚ) - 3 / 4 * n| ≤ 1 / 2) :
    Inside n m a ∨ Inside n m b ∨ Inside n m c := by
  have first := bounds_of_short (n := n) (s := a) (k := 1) (by rwa [Int.cast_one])
  have second := bounds_of_short (n := n) (s := b) (k := 2) (by rwa [Int.cast_ofNat])
  have third := bounds_of_short (n := n) (s := c) (k := 3) (by rwa [Int.cast_ofNat])
  unfold Inside
  omega

theorem bounds_of_long {s k : Int} (near : |(s : ℚ) - k / 4 * n| ≤ n / 16) :
    4 * (k * n) - n ≤ 16 * s ∧ 16 * s ≤ 4 * (k * n) + n := by
  obtain ⟨lower, upper⟩ := abs_le.mp near
  have lower : (4 * (k * n) - n : ℚ) ≤ 16 * s := by linarith
  have upper : (16 * s : ℚ) ≤ 4 * (k * n) + n := by linarith
  exact ⟨by exact_mod_cast lower, by exact_mod_cast upper⟩

theorem inside_of_long (inside : 0 < m ∧ m < n) (first : |(a : ℚ) - 1 / 4 * n| ≤ n / 16)
    (second : |(b : ℚ) - 2 / 4 * n| ≤ n / 16) (third : |(c : ℚ) - 3 / 4 * n| ≤ n / 16) :
    Inside n m a ∨ Inside n m b ∨ Inside n m c := by
  have first := bounds_of_long (n := n) (s := a) (k := 1) (by rwa [Int.cast_one])
  have second := bounds_of_long (n := n) (s := b) (k := 2) (by rwa [Int.cast_ofNat])
  have third := bounds_of_long (n := n) (s := c) (k := 3) (by rwa [Int.cast_ofNat])
  unfold Inside
  omega

/-- Of the three quarters inside a length one is nearer to no end than to a place inside. -/
theorem inside_of_near {d : Int} (inside : 0 < m ∧ m < n) (length : Near d n)
    (first : Near a (1 / 4 * d)) (second : Near b (2 / 4 * d)) (third : Near c (3 / 4 * d)) :
    Inside n m a ∨ Inside n m b ∨ Inside n m c := by
  have positive : (0 : ℚ) < n := by exact_mod_cast inside.1.trans inside.2
  rcases le_or_gt n (2 ^ 52) with small | large
  · -- a short length is exact, and its quarters are off by at most a half
    obtain rfl := eq_of_near length small
    have cast : (d : ℚ) ≤ 2 ^ 52 := by exact_mod_cast small
    exact inside_of_short inside (near_half first (by linarith)) (near_half second (by linarith))
      (near_half third (by linarith))
  · have large : (2 : ℚ) ^ 52 ≤ n := by exact_mod_cast large.le
    have off := near_part length le_rfl large
    have bounds := abs_le.mp off
    have quarter : ∀ {s : Int} {f : ℚ}, 0 ≤ f → f ≤ 1 → Near s (f * d) →
        |(s : ℚ) - f * n| ≤ n / 16 := by
      intro s f nonneg atMost near
      have scaled : |f * d - f * n| ≤ n / 64 := by
        rw [← mul_sub, abs_mul, abs_of_nonneg nonneg]
        exact (mul_le_of_le_one_left (abs_nonneg _) atMost).trans off
      have atMost : f * d ≤ 2 * n :=
        (mul_le_of_le_one_left (by linarith) atMost).trans (by linarith)
      have part := near_part near atMost (by linarith)
      have triangle := abs_sub_le (s : ℚ) (f * d) (f * n)
      linarith
    exact inside_of_long inside (quarter (by norm_num) (by norm_num) first)
      (quarter (by norm_num) (by norm_num) second) (quarter (by norm_num) (by norm_num) third)

end Arithmetic

section Between

variable {low high : Float}

/-- Something that is added to the lower end of a range ends up strictly inside if it is nearer to
neither end than to a number inside. -/
theorem strictly_inside {c a : Float} {l h p s : Int} (finiteLow : low.isFinite = true)
    (finiteHigh : high.isFinite = true) (finite : c.isFinite = true) (finite' : a.isFinite = true)
    (lowUnits : value low = l * smallest) (highUnits : value high = h * smallest)
    (units : value c = p * smallest) (units' : value a = s * smallest)
    (apart : l < p ∧ p < h) (inside : Inside (h - l) (p - l) s) :
    low < a + low ∧ a + low < high := by
  obtain ⟨lower, upper⟩ := inside
  have rounds := isRounded_add finite' finiteLow
  rw [units', lowUnits, ← add_mul] at rounds
  have start : value low ≤ (s + l : ℚ) * smallest := by
    rw [lowUnits]
    have nonneg : (l : ℚ) ≤ s + l := by
      have : (0 : ℚ) ≤ s := by exact_mod_cast (by omega : 0 ≤ s)
      linarith
    exact mul_le_mul_of_nonneg_right nonneg smallest_pos.le
  have stop : (s + l : ℚ) * smallest ≤ value high := by
    rw [highUnits]
    have atMost : (s + l : ℚ) ≤ h := by exact_mod_cast (by omega : s + l ≤ h)
    exact mul_le_mul_of_nonneg_right atMost smallest_pos.le
  have finiteSum := (rounds.within finiteLow finiteHigh start stop).1
  obtain ⟨x, sum⟩ := exists_units finiteSum
  have nearest : |x - (s + l)| ≤ |p - (s + l)| := by
    have nearest := rounds.nearest finiteSum finite
    rw [sum, units, ← sub_mul, ← sub_mul, abs_mul, abs_mul, abs_of_pos smallest_pos] at nearest
    exact_mod_cast le_of_mul_le_mul_right nearest smallest_pos
  have between : l < x ∧ x < h := by
    rcases abs_le.mp nearest with ⟨least, most⟩
    rcases abs_cases (p - (s + l)) with ⟨size, -⟩ | ⟨size, -⟩ <;> omega
  rw [← value_lt_iff finiteLow finiteSum, ← value_lt_iff finiteSum finiteHigh, lowUnits, highUnits,
    sum]
  exact ⟨mul_lt_mul_of_pos_right (by exact_mod_cast between.1) smallest_pos,
    mul_lt_mul_of_pos_right (by exact_mod_cast between.2) smallest_pos⟩

theorem near_pos {n d : Int} (near : Near d n) (positive : 0 < n) : 0 < d := by
  have positive : (1 : ℚ) ≤ n := by exact_mod_cast positive
  have above : (0 : ℚ) < d := by
    rcases near with half | part
    · linarith [(abs_le.mp half).1]
    · have bound : (n : ℚ) / 2 ^ 53 ≤ n / 2 := by
        rw [div_le_div_iff₀ (by norm_num) (by norm_num)]
        linarith
      linarith [(abs_le.mp part).1]
  exact_mod_cast above

theorem exists_length (isUsable : usable low high = true) {l h : Int}
    (lowUnits : value low = l * smallest) (highUnits : value high = h * smallest) :
    ∃ d : Int, value (high - low) = d * smallest ∧ Near d (h - l : Int) ∧ 0 < d := by
  obtain ⟨less, finiteLength, finiteLow, finiteHigh⟩ := isFinite_of_usable isUsable
  have less : 0 < h - l := by
    rw [← value_lt_iff finiteLow finiteHigh, lowUnits, highUnits] at less
    have less : l < h := by exact_mod_cast lt_of_mul_lt_mul_right less smallest_pos.le
    omega
  have rounds := isRounded_sub finiteHigh finiteLow
  rw [lowUnits, highUnits, ← sub_mul, ← Int.cast_sub] at rounds
  obtain ⟨d, units, near⟩ := rounds.near finiteLength (by exact_mod_cast less)
  exact ⟨d, units, near, near_pos near less⟩

/-- If a number lies strictly inside a range then a quarter of the range is drawn there. -/
theorem exists_quarter (isUsable : usable low high = true) {c : Float} (above : low < c)
    (below : c < high) :
    ∃ k ∈ [1, 2, 3], low < drawn low high (quarters k) ∧ drawn low high (quarters k) < high := by
  obtain ⟨-, finiteLength, finiteLow, finiteHigh⟩ := isFinite_of_usable isUsable
  have number := (isNaN_of_lt above).2
  have finite := isFinite_of_between number finiteLow finiteHigh
    ((lt_iff_rank (isNaN_of_isFinite finiteLow) number).mp above).le
    ((lt_iff_rank number (isNaN_of_isFinite finiteHigh)).mp below).le
  obtain ⟨l, lowUnits⟩ := exists_units finiteLow
  obtain ⟨h, highUnits⟩ := exists_units finiteHigh
  obtain ⟨p, units⟩ := exists_units finite
  rw [← value_lt_iff finiteLow finite, lowUnits, units] at above
  rw [← value_lt_iff finite finiteHigh, highUnits, units] at below
  have above : l < p := by exact_mod_cast lt_of_mul_lt_mul_right above smallest_pos.le
  have below : p < h := by exact_mod_cast lt_of_mul_lt_mul_right below smallest_pos.le
  obtain ⟨d, lengthUnits, length, positive⟩ := exists_length isUsable lowUnits highUnits
  have scaled : ∀ k ∈ [1, 2, 3], ∃ s : Int,
      value (fraction (quarters k) * (high - low)) = s * smallest ∧ Near s (k / 4 * d) := by
    intro k inner
    obtain ⟨finiteQuarter, quarter⟩ := value_quarters inner
    have rounds := isRounded_mul finiteQuarter finiteLength
    rw [quarter, lengthUnits, ← mul_assoc] at rounds
    have some : 0 < k := by
      simp only [List.mem_cons, List.not_mem_nil, or_false] at inner
      omega
    have some : (0 : ℚ) < k := by exact_mod_cast some
    have long : (0 : ℚ) < d := by exact_mod_cast positive
    exact rounds.near (scaled_bounds isUsable _).1 (by positivity)
  have drawnInside : ∀ (k : Nat) (s : Int),
      value (fraction (quarters k) * (high - low)) = s * smallest → Inside (h - l) (p - l) s →
      low < drawn low high (quarters k) ∧ drawn low high (quarters k) < high :=
    fun k s product => strictly_inside finiteLow finiteHigh finite (scaled_bounds isUsable _).1
      lowUnits highUnits units product ⟨above, below⟩
  obtain ⟨a, first, nearFirst⟩ := scaled 1 (by decide)
  obtain ⟨b, second, nearSecond⟩ := scaled 2 (by decide)
  obtain ⟨e, third, nearThird⟩ := scaled 3 (by decide)
  push_cast at nearFirst nearSecond nearThird
  rcases inside_of_near (m := p - l) ⟨by omega, by omega⟩ length nearFirst nearSecond nearThird with
    inside | inside | inside
  · exact ⟨1, by decide, drawnInside 1 a first inside⟩
  · exact ⟨2, by decide, drawnInside 2 b second inside⟩
  · exact ⟨3, by decide, drawnInside 3 e third inside⟩

theorem isNegative_fraction (w : UInt64) : isNegative (fraction w) = false := by
  obtain ⟨f, has⟩ := exists_fields_fraction w
  obtain ⟨finite, nonneg, -⟩ := fraction_bounds w
  rcases nonneg.lt_or_eq with positive | zero
  · exact isNegative_of_pos positive
  · -- then the fraction bits are zero, and the difference of equal numbers has no minus sign
    have rounds := isRounded_fraction has
    have clear : f = 0#52 := by
      by_contra some
      have some : (1 : ℚ) ≤ f.toNat := by exact_mod_cast BitVec.toNat_pos_of_ne_zero some
      have above : value (Float.ofBits 0x3ca0000000000000) ≤ f.toNat / 2 ^ 52 := by
        rw [value_step, div_le_div_iff₀ (by norm_num) (by norm_num)]
        linarith
      have ranks := (isRounded_of_isFinite isFinite_step).rank_le rounds above
      rw [← value_le_iff isFinite_step finite, value_step, ← zero] at ranks
      norm_num at ranks
    subst clear
    have one : HasFields 1 .positive 1023#11 0#52 :=
      HasFields.ofBits .positive 1023#11 0#52 (by decide)
    have difference : fraction w = 1 - 1 := congrArg (· - 1) (has.unique one)
    rw [difference]
    decide +kernel

theorem drawn_bounds (isUsable : usable low high = true) {w : UInt64}
    (below : drawn low high w < high) :
    (drawn low high w).isFinite = true ∧ value low ≤ value (drawn low high w) := by
  have returned : firstBetween low high [w] = .ok (drawn low high w, []) := if_pos below
  obtain ⟨finite, above, -⟩ := firstBetween_bounds isUsable returned
  exact ⟨finite, above⟩

theorem isNegative_drawn (isUsable : usable low high = true) {w : UInt64}
    (finite : (drawn low high w).isFinite = true) (lowZero : value low = 0)
    (zero : value (drawn low high w) = 0) : isNegative (drawn low high w) = false := by
  obtain ⟨-, finiteLength, finiteLow, -⟩ := isFinite_of_usable isUsable
  obtain ⟨finiteScaled, -⟩ := scaled_bounds isUsable w
  have length : 0 < value (high - low) := by
    obtain ⟨l, lowUnits⟩ := exists_units finiteLow
    obtain ⟨h, highUnits⟩ := exists_units (isFinite_of_usable isUsable).2.2.2
    obtain ⟨d, units, -, positive⟩ := exists_length isUsable lowUnits highUnits
    rw [units]
    exact mul_pos (by exact_mod_cast positive) smallest_pos
  have sum := isRounded_add finiteScaled finiteLow
  rw [lowZero, add_zero] at sum
  have same : value (fraction w * (high - low)) = 0 := by
    rw [← zero]
    exact value_eq_of_rank_eq finiteScaled finite
      ((rank_eq_rounded finiteScaled).trans sum.rank_eq.symm)
  exact isNegative_add_zero finiteScaled finiteLow
    (isNegative_mul (fraction_bounds w).1 finiteLength (isNegative_fraction w)
      (isNegative_of_pos length)) same lowZero

/-- If no number lies strictly inside a range then all words draw the same. -/
theorem drawn_unique (isUsable : usable low high = true) (nothing : ∀ c, low < c → ¬ c < high)
    {w w' : UInt64} (below : drawn low high w < high) (below' : drawn low high w' < high) :
    drawn low high w = drawn low high w' := by
  have finiteLow := (isFinite_of_usable isUsable).2.2.1
  have least : ∀ {w}, drawn low high w < high → value (drawn low high w) = value low := by
    intro w below
    obtain ⟨finite, above⟩ := drawn_bounds isUsable below
    refine (above.lt_or_eq.resolve_left fun more => ?_).symm
    exact nothing _ ((value_lt_iff finiteLow finite).mp more) below
  have finite := (drawn_bounds isUsable below).1
  have finite' := (drawn_bounds isUsable below').1
  refine eq_of_value_eq finite finite' ((least below).trans (least below').symm) fun zero => ?_
  have lowZero : value low = 0 := (least below).symm.trans zero
  rw [isNegative_drawn isUsable finite lowZero zero,
    isNegative_drawn isUsable finite' lowZero ((least below').trans lowZero)]

end Between

end Draws

end FractalBreeder
