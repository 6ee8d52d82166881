import FractalBreeder.Proofs.Number.Ranks

/-!
Sums, differences and products of binary64 numbers are the exact ones, rounded. Where the exact
result lies between two numbers, so does the rounded one. A remainder is no larger than its
dividend, and so it is finite.
-/
namespace FractalBreeder.Binary64

open Float.Model (Format UnpackedFloat totalExponent)
open Float.Model.UnpackedFloat

/-- What stays of `m` after `d` divides it, with the place of the rest below, at or above a half. -/
structure Tracks (em : ExtendedMantissa) (m d : Nat) : Prop where
  mantissa : em.mantissa = m / d
  roundBit : em.roundBit = decide (d ≤ 2 * (m % d))
  stickyBit : em.stickyBit = decide (2 * (m % d) ≠ d ∧ m % d ≠ 0)

theorem tracks_shiftRight (m k : Nat) :
    Tracks (ExtendedMantissa.ofMantissaAndAccuracy m .exact >>> k) m (2 ^ k) := by
  induction k with
  | zero =>
    change Tracks ⟨m, false, false⟩ m 1
    exact ⟨(Nat.div_one m).symm, by simp [Nat.mod_one], by simp [Nat.mod_one]⟩
  | succ k ih =>
    change Tracks (ExtendedMantissa.shiftRightOne
      (ExtendedMantissa.ofMantissaAndAccuracy m .exact >>> k)) m (2 ^ (k + 1))
    generalize ExtendedMantissa.ofMantissaAndAccuracy m .exact >>> k = em at ih
    have positive : 0 < 2 ^ k := Nat.two_pow_pos k
    rw [Nat.pow_succ]
    generalize 2 ^ k = d at ih positive
    have below := Nat.mod_lt m positive
    have rest : m % (d * 2) = m % d + d * (m / d % 2) := Nat.mod_mul
    constructor
    · rw [ExtendedMantissa.shiftRightOne, ih.mantissa, Nat.div_div_eq_div_mul]
    · rw [ExtendedMantissa.shiftRightOne, ih.mantissa, bne, Bool.beq_eq_decide_eq, ← decide_not,
        decide_eq_decide]
      rcases Nat.mod_two_eq_zero_or_one (m / d) with parity | parity <;> rw [parity] at rest ⊢ <;>
        omega
    · rw [ExtendedMantissa.shiftRightOne, ih.roundBit, ih.stickyBit, ← Bool.decide_or,
        decide_eq_decide]
      rcases Nat.mod_two_eq_zero_or_one (m / d) with parity | parity <;> rw [parity] at rest <;>
        omega

theorem roundedMantissa_of_tracks {em : ExtendedMantissa} {m d : Nat} (positive : 0 < d)
    (tracks : Tracks em m d) : em.roundedMantissa = roundHalfEven m d := by
  rcases em with ⟨mantissa, roundBit, stickyBit⟩
  rcases tracks with ⟨isQuotient, isRound, isSticky⟩
  simp only at isQuotient isRound isSticky
  have below := Nat.mod_lt m positive
  simp only [roundHalfEven]
  rcases lt_trichotomy (2 * (m % d)) d with less | half | more
  · have lower : roundBit = false := by rw [isRound, decide_eq_false_iff_not]; omega
    rw [if_pos less, ← isQuotient, lower]
    cases stickyBit <;> rfl
  · have upper : roundBit = true := by rw [isRound, decide_eq_true_iff]; omega
    have exact : stickyBit = false := by rw [isSticky, decide_eq_false_iff_not]; omega
    rw [if_neg (by omega), if_neg (by omega), ← isQuotient, upper, exact]
    rfl
  · have upper : roundBit = true := by rw [isRound, decide_eq_true_iff]; omega
    have beyond : stickyBit = true := by rw [isSticky, decide_eq_true_iff]; omega
    rw [if_neg (by omega), if_pos more, ← isQuotient, upper, beyond]
    rfl

theorem toNat_pack {s : Sign} {m : Nat} {e : Int} (canonical : Canonical m e) (positive : 0 < m) :
    (pack Format.binary64 (.finite s m e positive)).toNat =
      s.toBitVec.toNat * 2 ^ 63 + min 0x7ff0000000000000 ((e + 1074).toNat * 2 ^ 52 + m) := by
  rcases canonical with ⟨short, low, full⟩
  rw [pack_finite]
  split_ifs with large normal
  · change (fields s (-1#_) 0#_).toNat = _
    have maximal : (-1#11 : BitVec 11).toNat = 2047 := rfl
    rw [toNat_fields, maximal]
    change _ + 0 = _
    omega
  · have bounds := (Nat.log2_eq_iff (by omega)).mp (by omega : m.log2 = 52)
    rw [toNat_fields, BitVec.toNat_ofNat, BitVec.toNat_ofNat]
    omega
  · have small : m < 2 ^ 52 := by
      by_contra large
      have : m.log2 = 52 := (Nat.log2_eq_iff (by omega)).mpr ⟨by omega, short⟩
      omega
    have clear : (0#11 : BitVec 11).toNat = 0 := rfl
    rw [toNat_fields, clear, BitVec.toNat_ofNat]
    omega

/-- A number is the rational `q`, rounded. -/
structure IsRounded (x : Float) (q : ℚ) : Prop where
  number : x.isNaN = false
  rank_eq : rank x = rounded q

theorem HasBits.isRounded {x : Float} {s : Sign} {n : Nat} {q : ℚ} (has : HasBits x s n)
    (magnitude : rounded q = n) : IsRounded x (s.apply 1 * q) where
  number := has.isNaN
  rank_eq := by
    rw [has.rank_eq]
    cases s with
    | negative => simp [Sign.apply, rounded_neg, magnitude]
    | positive => simp [Sign.apply, magnitude]

theorem isRounded_of_isFinite {x : Float} (finite : x.isFinite = true) : IsRounded x (value x) :=
  ⟨isNaN_of_isFinite finite, rank_eq_rounded finite⟩

/-- The exponent that rounding gives to `m * 2 ^ e`. -/
def target (m : Nat) (e : Int) : Int := max ((m.log2 : Int) + e - 52) (-1074)

theorem targetExponent_eq (m : Nat) (e : Int) :
    Format.binary64.targetExponent (totalExponent m e) = target m e := by
  change max ((m.log2 : Int) + 1 + e - 53) (-1074) = max _ _
  congr 1
  omega

theorem place_target {m : Nat} {e : Int} (positive : 0 < m) :
    Place (m * 2 ^ e) (target m e) := by
  unfold target
  have two : (2 : ℚ) ≠ 0 := by norm_num
  have grows : ∀ {i j : Int}, i ≤ j → (2 : ℚ) ^ i ≤ 2 ^ j :=
    fun le => zpow_le_zpow_right₀ (by norm_num) le
  obtain ⟨lower, upper⟩ := log2_bounds positive
  refine ⟨le_max_right _ _, ?_, ?_⟩
  · calc (m : ℚ) * 2 ^ e < 2 ^ ((m.log2 : Int) + 1) * 2 ^ e := by gcongr
      _ = 2 ^ ((m.log2 : Int) + 1 + e) := (zpow_add₀ two _ _).symm
      _ ≤ _ := grows (by omega)
  · rcases le_total ((m.log2 : Int) + e - 52) (-1074) with least | most
    · exact .inr (max_eq_right least)
    · refine .inl ?_
      calc (2 : ℚ) ^ (max ((m.log2 : Int) + e - 52) (-1074) + 52)
          = 2 ^ ((m.log2 : Int) + e) := by rw [max_eq_left most]; congr 1; omega
        _ = 2 ^ (m.log2 : Int) * 2 ^ e := zpow_add₀ two _ _
        _ ≤ m * 2 ^ e := by gcongr

theorem shiftToTargetExponent_eq (m : Nat) (e : Int) (reached : e ≤ target m e) :
    (shiftToTargetExponent Format.binary64 m e .exact).1.roundedMantissa =
        roundHalfEven m (2 ^ (target m e - e).toNat) ∧
      (shiftToTargetExponent Format.binary64 m e .exact).2 = target m e := by
  simp only [shiftToTargetExponent, shiftToExponent, targetExponent_eq]
  have tracks := tracks_shiftRight m (target m e - e).toNat
  exact ⟨roundedMantissa_of_tracks (Nat.two_pow_pos _) tracks, by omega⟩

theorem shiftToTargetExponent_self {m : Nat} {e : Int} (within : target m e ≤ e) :
    shiftToTargetExponent Format.binary64 m e .exact = (⟨m, false, false⟩, e) := by
  have nothing : (target m e - e).toNat = 0 := by omega
  simp only [shiftToTargetExponent, shiftToExponent, targetExponent_eq, nothing]
  exact Prod.ext rfl (by simp)

theorem shiftToTargetExponent_carry {e : Int} (low : -1074 ≤ e) :
    shiftToTargetExponent Format.binary64 (2 ^ 53) e .exact = (⟨2 ^ 52, false, false⟩, e + 1) := by
  have one : (target (2 ^ 53) e - e).toNat = 1 := by
    rw [target, Nat.log2_two_pow]
    omega
  simp only [shiftToTargetExponent, shiftToExponent, targetExponent_eq, one]
  rfl

theorem log2_le {m n : Nat} (below : m < 2 ^ (n + 1)) : m.log2 ≤ n := by
  rcases Nat.eq_zero_or_pos m with rfl | positive
  · exact Nat.zero_le n
  · exact Nat.le_of_lt_succ ((Nat.log2_lt positive.ne').mpr below)

theorem HasBits.of_packed {x : Float} {s : Sign} {m : Nat} {e : Int} (canonical : Canonical m e)
    (positive : 0 < m)
    (packed : x.toBits.toBitVec = pack Format.binary64 (.finite s m e positive)) :
    HasBits x s (min 0x7ff0000000000000 ((e + 1074).toNat * 2 ^ 52 + m)) where
  bits := (congrArg BitVec.toNat packed).trans (toNat_pack canonical positive)
  le_infinity := min_le_left _ _

theorem HasBits.of_packedZero {x : Float} {s : Sign}
    (packed : x.toBits.toBitVec = pack Format.binary64 (.zero s)) : HasBits x s 0 where
  bits := by
    have whole : x.toBits.toNat = (fields s 0#_ 0#_).toNat := congrArg BitVec.toNat packed
    rw [whole, toNat_fields, BitVec.toNat_zero, BitVec.toNat_zero]
    omega
  le_infinity := Nat.zero_le _

theorem zpow_eq_mul {e e' : Int} (le : e' ≤ e) :
    (2 : ℚ) ^ e = 2 ^ e' * (2 ^ (e - e').toNat : Nat) := by
  have apart : e = e' + (e - e').toNat := by omega
  conv_lhs => rw [apart, zpow_add₀ (by norm_num), zpow_natCast]
  push_cast
  rfl

theorem div_two_pow {e e' : Int} (m : Nat) (le : e' ≤ e) :
    (m : ℚ) / (2 ^ (e - e').toNat : Nat) = m * 2 ^ e' / 2 ^ e := by
  have nonzero : (2 : ℚ) ^ e' ≠ 0 := by positivity
  rw [zpow_eq_mul le]
  field_simp

/-- The number with a mantissa in its last place. -/
def assembled (s : Sign) (shifted : ExtendedMantissa × Int) : UnpackedFloat :=
  if h : shifted.1.mantissa = 0 then .zero s
  else .finite s shifted.1.mantissa shifted.2 (Nat.pos_of_ne_zero h)

theorem assembled_of_pos {s : Sign} {m : Nat} {e : Int} {round sticky : Bool} (positive : 0 < m) :
    assembled s (⟨m, round, sticky⟩, e) = .finite s m e positive :=
  dif_neg positive.ne'

theorem roundWithAccuracy_eq (s : Sign) (m : Nat) (e : Int) :
    roundWithAccuracy Format.binary64 s m e .exact =
      assembled s (shiftToTargetExponent Format.binary64
        (shiftToTargetExponent Format.binary64 m e .exact).1.roundedMantissa
        (shiftToTargetExponent Format.binary64 m e .exact).2 .exact) := rfl

/-- After rounding only a carry into the next power of two moves the exponent once more. -/
theorem hasBits_of_roundWithAccuracy {x : Float} {s : Sign} {m : Nat} {e : Int} (positive : 0 < m)
    (reached : e ≤ target m e)
    (packed : x.toBits.toBitVec =
      pack Format.binary64 (roundWithAccuracy Format.binary64 s m e .exact)) :
    HasBits x s (min 0x7ff0000000000000 ((target m e + 1074).toNat * 2 ^ 52 +
      roundHalfEven m (2 ^ (target m e - e).toNat))) := by
  obtain ⟨rounds, exponent⟩ := shiftToTargetExponent_eq m e reached
  have place : Place (m * 2 ^ e) (target m e) := place_target positive
  have units := div_two_pow m reached
  have upper := place.round_le (Nat.two_pow_pos _) units
  have lower := place.le_round (Nat.two_pow_pos _) units
  have low := place.low
  revert packed
  rw [roundWithAccuracy_eq, rounds, exponent]
  generalize target m e = t at *
  generalize roundHalfEven m (2 ^ (t - e).toNat) = r at *
  rcases Nat.lt_or_eq_of_le upper with less | carry
  · have within : target r t ≤ t := by
      have short := log2_le (n := 52) less
      unfold target
      omega
    rw [shiftToTargetExponent_self within]
    rcases Nat.eq_zero_or_pos r with zero | some
    · subst zero
      intro packed
      obtain rfl : t = -1074 := lower.resolve_left (by omega)
      simpa using HasBits.of_packedZero packed
    · rw [assembled_of_pos some]
      exact .of_packed ⟨less, low, lower⟩ some
  · subst carry
    rw [shiftToTargetExponent_carry low, assembled_of_pos (by decide)]
    intro packed
    have has := HasBits.of_packed ⟨by decide, by omega, .inl le_rfl⟩ (by decide) packed
    have same : (t + 1 + 1074).toNat * 2 ^ 52 + 2 ^ 52 = (t + 1074).toNat * 2 ^ 52 + 2 ^ 53 := by
      omega
    rwa [same] at has

theorem apply_mul_apply (s s' : Sign) : (s * s').apply 1 = s.apply 1 * s'.apply 1 := by
  cases s <;> cases s' <;> rfl

theorem isRounded_of_roundWithAccuracy {x : Float} {s : Sign} {m : Nat} {e : Int}
    (positive : 0 < m) (reached : e ≤ target m e)
    (packed : x.toBits.toBitVec =
      pack Format.binary64 (roundWithAccuracy Format.binary64 s m e .exact)) :
    IsRounded x (s.apply 1 * (m * 2 ^ e)) := by
  refine (hasBits_of_roundWithAccuracy positive reached packed).isRounded ?_
  have exact : (0 : ℚ) ≤ m * 2 ^ e := by positivity
  have numPositive : 0 < ((m : ℚ) * 2 ^ e).num.natAbs := by
    have cast : (0 : ℚ) < m := Nat.cast_pos.mpr positive
    exact Int.natAbs_pos.mpr (Rat.num_ne_zero.mpr (by positivity))
  have self := natAbs_num_div_den exact
  rw [rounded_of_nonneg exact (Rat.den_pos _) self]
  refine congrArg Nat.cast (magnitudeBits_of_place numPositive (Rat.den_pos _) ?_
    (Nat.two_pow_pos _) ?_)
  · rw [self]
    exact place_target positive
  · rw [self]
    exact div_two_pow m reached

theorem log2_shiftLeft {m : Nat} (k : Nat) (positive : 0 < m) : (m <<< k).log2 = m.log2 + k := by
  have lower := Nat.log2_self_le positive.ne'
  have upper : m < 2 ^ (m.log2 + 1) := Nat.lt_log2_self
  rw [Nat.shiftLeft_eq, Nat.log2_eq_iff (Nat.mul_pos positive (Nat.two_pow_pos k)).ne']
  constructor
  · rw [Nat.pow_add]
    exact Nat.mul_le_mul_right _ lower
  · rw [Nat.add_right_comm, Nat.pow_add]
    exact Nat.mul_lt_mul_of_pos_right upper (Nat.two_pow_pos k)

theorem shiftLeft_mul_zpow (m k : Nat) (e : Int) :
    ((m <<< k : Nat) : ℚ) * 2 ^ (e - k) = m * 2 ^ e := by
  have split : (2 : ℚ) ^ e = 2 ^ (k : Int) * 2 ^ (e - k) := by
    rw [← zpow_add₀ (by norm_num)]
    congr 1
    omega
  rw [Nat.shiftLeft_eq, split, zpow_natCast]
  push_cast
  ring

/-- Rounding first gives the number all the places that the target asks for. -/
theorem isRounded_of_round {x : Float} {s : Sign} {m : Nat} {e : Int} (positive : 0 < m)
    (packed : x.toBits.toBitVec = pack Format.binary64 (round Format.binary64 s m e)) :
    IsRounded x (s.apply 1 * (m * 2 ^ e)) := by
  have given : round Format.binary64 s m e = roundWithAccuracy Format.binary64 s
      (m <<< (e - target m e).toNat) (e - (e - target m e).toNat) .exact := by
    rw [UnpackedFloat.round, targetExponent_eq]
    rfl
  rw [given] at packed
  have reached : e - (e - target m e).toNat ≤
      target (m <<< (e - target m e).toNat) (e - (e - target m e).toNat) := by
    have length := log2_shiftLeft (e - target m e).toNat positive
    unfold target at length ⊢
    omega
  have shifted : 0 < m <<< (e - target m e).toNat := by
    rw [Nat.shiftLeft_eq]
    exact Nat.mul_pos positive (Nat.two_pow_pos _)
  rw [← shiftLeft_mul_zpow m (e - target m e).toNat e]
  exact isRounded_of_roundWithAccuracy shifted reached packed

theorem isRounded_of_normalize {x : Float} {m e : Int} {s : Sign}
    (packed : x.toBits.toBitVec = pack Format.binary64 (normalize Format.binary64 m e s)) :
    IsRounded x (m * 2 ^ e) := by
  rcases lt_trichotomy m 0 with negative | rfl | positive
  · rw [UnpackedFloat.normalize, compare_lt_iff_lt.mpr negative] at packed
    have rounds := isRounded_of_round (by omega) packed
    have natural : ((-m).toNat : ℚ) = -m := by
      exact_mod_cast congrArg (Int.cast (R := ℚ)) (Int.toNat_of_nonneg (by omega : 0 ≤ -m))
    rw [natural] at rounds
    simpa [Sign.apply] using rounds
  · simpa using (HasBits.of_packedZero packed).isRounded rounded_zero
  · rw [UnpackedFloat.normalize, compare_gt_iff_gt.mpr positive] at packed
    have rounds := isRounded_of_round (by omega) packed
    have natural : (m.toNat : ℚ) = m := by
      exact_mod_cast congrArg (Int.cast (R := ℚ)) (Int.toNat_of_nonneg positive.le)
    rw [natural] at rounds
    simpa [Sign.apply] using rounds

/-- What a finite number stands for, together with its value. -/
theorem shape_of_isFinite {x : Float} (finite : x.isFinite = true) :
    (∃ s, shape x = .zero s ∧ value x = 0) ∨
      ∃ s m e positive, shape x = .finite s m e positive ∧ Canonical m e ∧
        value x = s.apply 1 * (m * 2 ^ e) := by
  obtain ⟨s, e, f, has⟩ := HasFields.of_isFinite finite
  have stands := shape_of_fields has.bits
  have canonical := has.canonical
  have value := has.value_eq
  rw [has.significand_eq, has.exponent_eq] at canonical value
  by_cases bottom : e = 0#_
  · subst bottom
    by_cases clear : f = 0#_
    · subst clear
      exact .inl ⟨s, stands, by simpa using value⟩
    · rw [unpacked_subnormal s clear] at stands
      exact .inr ⟨s, _, _, _, stands, canonical, value⟩
  · rw [unpacked_normal s f has.finite bottom] at stands
    have nonzero : e.toNat ≠ 0 := fun zero => bottom (BitVec.eq_of_toNat_eq zero)
    rw [if_neg nonzero, if_neg nonzero, Nat.add_comm, ← toNat_hidden] at canonical value
    exact .inr ⟨s, _, _, _, stands, canonical, value⟩

section Operations

variable {x y : Float}

theorem bits_add : (x + y).toBits.toBitVec =
    pack Format.binary64 (add Format.binary64 (shape x) (shape y)) := rfl

theorem bits_sub : (x - y).toBits.toBitVec =
    pack Format.binary64 (sub Format.binary64 (shape x) (shape y)) := rfl

theorem bits_mul : (x * y).toBits.toBitVec =
    pack Format.binary64 (mul Format.binary64 (shape x) (shape y)) := rfl

theorem isRounded_of_packed {s : Sign} {m : Nat} {e : Int} {positive : 0 < m}
    (canonical : Canonical m e)
    (packed : x.toBits.toBitVec = pack Format.binary64 (.finite s m e positive)) :
    IsRounded x (s.apply 1 * (m * 2 ^ e)) :=
  (HasBits.of_packed canonical positive packed).isRounded (rounded_of_canonical canonical)

theorem isRounded_of_packedZero {s : Sign}
    (packed : x.toBits.toBitVec = pack Format.binary64 (.zero s)) : IsRounded x 0 := by
  simpa using (HasBits.of_packedZero packed).isRounded rounded_zero

theorem apply_mul_zpow (s : Sign) (m k : Nat) (e : Int) :
    ((s.apply (m <<< k : Nat) : Int) : ℚ) * 2 ^ (e - k) = s.apply 1 * (m * 2 ^ e) := by
  rw [← shiftLeft_mul_zpow m k e, ← mul_assoc]
  congr 1
  cases s with
  | negative => simp only [Sign.apply, Int.cast_neg, Int.cast_natCast, Int.cast_one, neg_mul, one_mul]
  | positive => simp only [Sign.apply, Int.cast_natCast, Int.cast_one, one_mul]

theorem isRounded_add (finite : x.isFinite = true) (finite' : y.isFinite = true) :
    IsRounded (x + y) (value x + value y) := by
  have packed := @bits_add x y
  rcases shape_of_isFinite finite with
    ⟨s, stands, value⟩ | ⟨s, m, e, positive, stands, canonical, value⟩ <;>
  rcases shape_of_isFinite finite' with
    ⟨s', stands', value'⟩ | ⟨s', m', e', positive', stands', canonical', value'⟩ <;>
  rw [stands, stands'] at packed <;>
  rw [value, value']
  · rw [add_zero]
    change _ = pack Format.binary64 (if s == s' then .zero s else .zero .positive) at packed
    split_ifs at packed <;> exact isRounded_of_packedZero packed
  · rw [zero_add]
    exact isRounded_of_packed canonical' packed
  · rw [add_zero]
    exact isRounded_of_packed canonical packed
  · -- both summands in units of the smaller exponent
    have low : e - (e - min e e').toNat = min e e' := by omega
    have low' : e' - (e' - min e e').toNat = min e e' := by omega
    have units := apply_mul_zpow s m (e - min e e').toNat e
    have units' := apply_mul_zpow s' m' (e' - min e e').toNat e'
    rw [low] at units
    rw [low'] at units'
    rw [← units, ← units', ← add_mul, ← Int.cast_add]
    exact isRounded_of_normalize packed

theorem unpacked_sub_eq (u v : UnpackedFloat) :
    sub Format.binary64 u v = add Format.binary64 u v.neg := by
  cases u <;> cases v <;> try rfl
  rename_i s m e positive s' m' e' positive'
  change normalize Format.binary64 (s.apply _ - s'.apply _) _ _ =
    normalize Format.binary64 (s.apply _ + (-s').apply _) _ _
  rw [apply_neg, Int.sub_eq_add_neg]

theorem sub_eq (finite : y.isFinite = true) : x - y = x + -y := by
  have shapes : shape (-y) = (shape y).neg := by
    obtain ⟨s, e, f, has⟩ := HasFields.of_isFinite finite
    rw [shape_of_fields has.bits, shape_of_fields has.neg.bits, neg_unpacked]
  apply toBits_injective
  apply UInt64.toBitVec_inj.mp
  rw [bits_sub, bits_add, unpacked_sub_eq, shapes]

theorem isRounded_sub (finite : x.isFinite = true) (finite' : y.isFinite = true) :
    IsRounded (x - y) (value x - value y) := by
  rw [sub_eq finite', sub_eq_add_neg, ← value_neg finite']
  exact isRounded_add finite (isFinite_neg finite')

/-- A product with a factor of 53 bits has at least as many, and otherwise its exponent is low. -/
theorem le_target_mul {m m' : Nat} {e e' : Int} (canonical : Canonical m e)
    (canonical' : Canonical m' e') (positive : 0 < m) (positive' : 0 < m') :
    e + e' ≤ target (m * m') (e + e') := by
  have low := canonical.low
  have low' := canonical'.low
  have long : 52 ≤ (m * m').log2 ∨ e + e' ≤ -1074 := by
    have nonzero : m * m' ≠ 0 := (Nat.mul_pos positive positive').ne'
    rcases canonical.normal with full | least
    · exact .inl ((Nat.le_log2 nonzero).mpr (full.trans (Nat.le_mul_of_pos_right m positive')))
    rcases canonical'.normal with full | least'
    · exact .inl ((Nat.le_log2 nonzero).mpr (full.trans (Nat.le_mul_of_pos_left m' positive)))
    · exact .inr (by omega)
  unfold target
  omega

theorem isRounded_mul (finite : x.isFinite = true) (finite' : y.isFinite = true) :
    IsRounded (x * y) (value x * value y) := by
  have packed := @bits_mul x y
  rcases shape_of_isFinite finite with
    ⟨s, stands, value⟩ | ⟨s, m, e, positive, stands, canonical, value⟩ <;>
  rcases shape_of_isFinite finite' with
    ⟨s', stands', value'⟩ | ⟨s', m', e', positive', stands', canonical', value'⟩ <;>
  rw [stands, stands'] at packed <;>
  rw [value, value']
  · simpa using isRounded_of_packedZero packed
  · simpa using isRounded_of_packedZero packed
  · simpa using isRounded_of_packedZero packed
  · have reached := le_target_mul canonical canonical' positive positive'
    have rounds := isRounded_of_roundWithAccuracy (Nat.mul_pos positive positive') reached packed
    have exact : ((s * s').apply 1 : ℚ) * ((m * m' : Nat) * 2 ^ (e + e')) =
        s.apply 1 * (m * 2 ^ e) * (s'.apply 1 * (m' * 2 ^ e')) := by
      rw [apply_mul_apply, zpow_add₀ (by norm_num)]
      push_cast
      ring
    rwa [exact] at rounds

/-- A finite number without a minus sign is a zero or has a mantissa, and shows no sign there. -/
theorem shape_of_isPositive (finite : x.isFinite = true) (positive : isNegative x = false) :
    shape x = .zero .positive ∧ value x = 0 ∨
      ∃ m e some, shape x = .finite .positive m e some ∧ Canonical m e ∧ value x = m * 2 ^ e := by
  have number := isNaN_of_isFinite finite
  obtain ⟨s, n, has, stands⟩ := exists_standsFor number
  obtain rfl : s = .positive := by
    cases s with
    | negative => exact absurd (has.isNegative.mpr rfl) (Bool.eq_false_iff.mp positive)
    | positive => rfl
  rcases shape_of_isFinite finite with ⟨s, shown, zero⟩ | ⟨s, m, e, some, shown, canonical, own⟩
  · rw [shown] at stands
    cases stands
    exact .inl ⟨shown, zero⟩
  · rw [shown] at stands
    cases stands
    exact .inr ⟨m, e, some, shown, canonical, by simpa [Sign.apply] using own⟩

/-- A product of numbers without a minus sign has none, also where it is rounded to zero. -/
theorem isNegative_mul (finite : x.isFinite = true) (finite' : y.isFinite = true)
    (positive : isNegative x = false) (positive' : isNegative y = false) :
    isNegative (x * y) = false := by
  have packed := @bits_mul x y
  have plain : ∀ {n : Nat}, HasBits (x * y) .positive n → isNegative (x * y) = false := by
    intro n has
    rw [Bool.eq_false_iff]
    exact fun negative => absurd (has.isNegative.mp negative) (by rintro ⟨⟩)
  rcases shape_of_isPositive finite positive with ⟨shown, -⟩ | ⟨m, e, some, shown, canonical, -⟩ <;>
  rcases shape_of_isPositive finite' positive' with
    ⟨shown', -⟩ | ⟨m', e', some', shown', canonical', -⟩ <;>
  rw [shown, shown'] at packed
  · exact plain (.of_packedZero packed)
  · exact plain (.of_packedZero packed)
  · exact plain (.of_packedZero packed)
  · exact plain (hasBits_of_roundWithAccuracy (Nat.mul_pos some some')
      (le_target_mul canonical canonical' some some') packed)

/-- The sum of two zeros has a minus sign only if both have. -/
theorem isNegative_add_zero (finite : x.isFinite = true) (finite' : y.isFinite = true)
    (positive : isNegative x = false) (zero : value x = 0) (zero' : value y = 0) :
    isNegative (x + y) = false := by
  have packed := @bits_add x y
  have shown : shape x = .zero .positive := by
    rcases shape_of_isPositive finite positive with ⟨shown, -⟩ | ⟨m, e, some, -, -, own⟩
    · exact shown
    · have above : (0 : ℚ) < m * 2 ^ e := by positivity
      rw [← own, zero] at above
      exact absurd above (lt_irrefl 0)
  obtain ⟨s, shown'⟩ : ∃ s, shape y = .zero s := by
    rcases shape_of_isFinite finite' with ⟨s, shown, -⟩ | ⟨s, m, e, some, -, -, own⟩
    · exact ⟨s, shown⟩
    · have above : (0 : ℚ) < m * 2 ^ e := by positivity
      rw [own] at zero'
      refine absurd zero' (mul_ne_zero ?_ above.ne')
      cases s <;> simp [Sign.apply]
  have has : HasBits (x + y) .positive 0 := by
    rw [shown, shown'] at packed
    cases s <;> exact .of_packedZero packed
  rw [Bool.eq_false_iff]
  exact fun negative => absurd (has.isNegative.mp negative) (by rintro ⟨⟩)

theorem isFinite_of_packed {u : UnpackedFloat} (finite : x.isFinite = true)
    (packed : x.toBits.toBitVec = pack Format.binary64 u) : u.isFinite = true := by
  change (shape x).isFinite = true at finite
  cases u with
  | notANumber =>
    rw [shape_of_fields (s := .positive) (e := -1#_) packed] at finite
    exact absurd rfl ((isFinite_unpacked _ _ _).mp finite)
  | infinity s =>
    rw [shape_of_fields (e := -1#_) packed] at finite
    exact absurd rfl ((isFinite_unpacked _ _ _).mp finite)
  | zero s => rfl
  | finite s m e positive => rfl

theorem isFinite_of_add {u v : UnpackedFloat} (finite : (add Format.binary64 u v).isFinite = true) :
    u.isFinite = true ∧ v.isFinite = true := by
  cases u with
  | notANumber => cases finite
  | infinity s =>
    cases v with
    | infinity s' =>
      change (if s == s' then UnpackedFloat.infinity s else .notANumber).isFinite = true at finite
      split_ifs at finite <;> cases finite
    | _ => cases finite
  | zero s =>
    cases v with
    | notANumber => cases finite
    | infinity s' => cases finite
    | _ => exact ⟨rfl, rfl⟩
  | finite s m e positive =>
    cases v with
    | notANumber => cases finite
    | infinity s' => cases finite
    | _ => exact ⟨rfl, rfl⟩

/-- A finite sum has finite summands. -/
theorem isFinite_of_isFinite_add (finite : (x + y).isFinite = true) :
    x.isFinite = true ∧ y.isFinite = true :=
  isFinite_of_add (isFinite_of_packed finite bits_add)

theorem isFinite_of_isFinite_sub (finite : (x - y).isFinite = true) :
    x.isFinite = true ∧ y.isFinite = true := by
  have sum := isFinite_of_packed finite bits_sub
  rw [unpacked_sub_eq] at sum
  refine (isFinite_of_add sum).imp_right fun negated => ?_
  change (shape y).isFinite = true
  generalize shape y = v at negated
  cases v with
  | notANumber => cases negated
  | infinity s => cases negated
  | _ => rfl

namespace IsRounded

variable {q q' : ℚ}

theorem isFinite_iff (rounds : IsRounded x q) :
    x.isFinite = true ↔ |rounded q| < 0x7ff0000000000000 := by
  rw [isFinite_iff_rank rounds.number, rounds.rank_eq]

/-- Rounding stays on the same side of every number. -/
theorem rank_le (rounds : IsRounded x q) (rounds' : IsRounded y q') (le : q ≤ q') :
    rank x ≤ rank y := by
  rw [rounds.rank_eq, rounds'.rank_eq]
  exact rounded_mono le

/-- What lies between two finite numbers rounds to a finite one between them. -/
theorem within {low high : Float} (rounds : IsRounded x q) (finite : low.isFinite = true)
    (finite' : high.isFinite = true) (above : value low ≤ q) (below : q ≤ value high) :
    x.isFinite = true ∧ value low ≤ value x ∧ value x ≤ value high := by
  have lower := (isRounded_of_isFinite finite).rank_le rounds above
  have upper := rounds.rank_le (isRounded_of_isFinite finite') below
  have inside := isFinite_of_between rounds.number finite finite' lower upper
  exact ⟨inside, (value_le_iff finite inside).mpr lower, (value_le_iff inside finite').mpr upper⟩

end IsRounded

end Operations

section Remainder

variable {x y : Float}

theorem isFinite_ofRatio {num den : Nat} (negative : Bool)
    (below : magnitudeBits num den < 0x7ff0000000000000) :
    (ofRatio negative num den).isFinite = true :=
  (hasBits_ofRatio negative num den).isFinite_iff.mpr below

theorem significand_ne_zero {y : Float} (positive : 0 < y) : significand y ≠ 0 := by
  obtain ⟨-, number⟩ := isNaN_of_lt positive
  have above : 0 < rank y := by
    have plain : (0 : Float).isNaN = false := rfl
    have zero : rank 0 = 0 := rfl
    rwa [lt_iff_rank plain number, zero] at positive
  intro zero
  have clear : y.toBits.toNat % 0x8000000000000000 = 0 := by
    have exponent : biased y = y.toBits.toNat / 2 ^ 52 % 2 ^ 11 := by
      rw [biased, UInt64.toNat_and, UInt64.toNat_shiftRight, ← Nat.and_two_pow_sub_one_eq_mod,
        ← Nat.shiftRight_eq_div_pow]
      simp
    have fraction : (y.toBits &&& 0xfffffffffffff).toNat = y.toBits.toNat % 2 ^ 52 := by
      rw [UInt64.toNat_and, ← Nat.and_two_pow_sub_one_eq_mod]
      simp
    by_cases bottom : biased y = 0
    · rw [significand, if_pos bottom, fraction] at zero
      omega
    · rw [significand, if_neg bottom] at zero
      omega
  simp [rank, clear] at above

/-- A remainder by a positive number, even by infinity, is finite. -/
theorem isFinite_remainder (finite : x.isFinite = true) (positive : 0 < y) :
    (remainder x y).isFinite = true := by
  obtain ⟨s, e, f, has⟩ := HasFields.of_isFinite finite
  have number := (isNaN_of_lt positive).2
  have divides : (significand y == 0) = false :=
    beq_eq_false_iff_ne.mpr (significand_ne_zero positive)
  unfold remainder
  simp only [has.isNaN, number, has.isInf, divides, Bool.or_self, Bool.false_eq_true, ↓reduceIte]
  split_ifs with infinite
  · exact finite
  · have low : exponent x - (exponent x - min (exponent x) (exponent y)).toNat =
        min (exponent x) (exponent y) := by omega
    have dividend := shiftLeft_mul_zpow (significand x)
      (exponent x - min (exponent x) (exponent y)).toNat (exponent x)
    rw [low] at dividend
    generalize min (exponent x) (exponent y) = place at dividend ⊢
    generalize significand x <<< (exponent x - place).toNat = whole at dividend ⊢
    generalize significand y <<< (exponent y - place).toNat = divisor
    have less : ((whole % divisor : Nat) : ℚ) * 2 ^ place ≤ significand x * 2 ^ exponent x := by
      rw [← dividend]
      gcongr
      exact Nat.mod_le whole divisor
    obtain ⟨denPositive, same⟩ := @scaleDown_spec (whole % divisor) 1 (-place) Nat.one_pos
    have same : ((scaleDown (whole % divisor) 1 (-place)).1 : ℚ) /
        (scaleDown (whole % divisor) 1 (-place)).2 = (whole % divisor : Nat) * 2 ^ place := by
      rw [same]
      simp
    have bits := rounded_of_nonneg (by positivity) denPositive same
    have bounded := (rounded_mono less).trans_lt
      (has.rounded_eq.trans_lt (Int.ofNat_lt.mpr has.below_infinity))
    rw [bits] at bounded
    rw [scaleDown, neg_neg] at bounded
    exact isFinite_ofRatio _ (Int.ofNat_lt.mp bounded)

/-- Only a finite dividend, and a divisor that is a number, leave a finite remainder. -/
theorem isFinite_of_isFinite_remainder (finite : (remainder x y).isFinite = true) :
    x.isFinite = true ∧ y.isNaN = false := by
  have nowhere : nan.isFinite = false := rfl
  have plain : (x.isNaN || y.isNaN || x.isInf || significand y == 0) = false := by
    refine Bool.eq_false_iff.mpr fun special => ?_
    rw [remainder, if_pos special, nowhere] at finite
    cases finite
  simp only [Bool.or_eq_false_iff] at plain
  obtain ⟨⟨⟨number, number'⟩, bounded⟩, -⟩ := plain
  refine ⟨?_, number'⟩
  change (shape x).isFinite = true
  change (shape x).isNaN = false at number
  change (shape x).isInf = false at bounded
  generalize shape x = u at number bounded
  cases u with
  | notANumber => cases number
  | infinity s => cases bounded
  | _ => rfl

end Remainder

end FractalBreeder.Binary64
