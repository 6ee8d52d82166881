import FractalBreeder.Proofs.Number.Monotonicity

/-!
The binary64 numbers in their order. The rank of a number counts the numbers between it and zero;
a comparison compares ranks, and the rank of a finite number is that of its rational value, rounded.
-/
namespace FractalBreeder.Binary64

open Float.Model (Format UnpackedFloat)
open Float.Model.UnpackedFloat

def rank (x : Float) : Int :=
  let magnitude : Nat := x.toBits.toNat % 0x8000000000000000
  if isNegative x then -magnitude else magnitude

/-- The value of a finite number. -/
def value (x : Float) : ℚ :=
  if isNegative x then -(significand x * 2 ^ exponent x) else significand x * 2 ^ exponent x

theorem apply_neg (s : Sign) (n : Int) : (-s).apply n = -s.apply n := by
  cases s with
  | negative => exact (neg_neg n).symm
  | positive => rfl

/-- What the bits of a number stand for. -/
abbrev shape (x : Float) : UnpackedFloat := unpack Format.binary64 x.toBits.toBitVec

theorem shape_of_fields {x : Float} {s : Sign} {e : BitVec 11} {f : BitVec 52}
    (bits : x.toBits.toBitVec = fields s e f) : shape x = unpacked s e f := by
  rw [shape, bits, unpack_fields]

/-- The bits of a number: a sign, and a magnitude that is at most infinite. -/
structure HasBits (x : Float) (s : Sign) (n : Nat) : Prop where
  bits : x.toBits.toNat = s.toBitVec.toNat * 2 ^ 63 + n
  le_infinity : n ≤ 0x7ff0000000000000

namespace HasBits

variable {x : Float} {s : Sign} {n : Nat}

theorem isNegative (has : HasBits x s n) : Binary64.isNegative x = true ↔ s = .negative := by
  have limit := has.le_infinity
  exact isNegative_of_bits has.bits (by omega)

theorem rank_eq (has : HasBits x s n) : rank x = s.apply n := by
  have bits := has.bits
  have limit := has.le_infinity
  have magnitude : x.toBits.toNat % 0x8000000000000000 = n := by omega
  unfold rank
  simp only [magnitude]
  cases s with
  | negative =>
      rw [if_pos (has.isNegative.mpr rfl)]
      rfl
  | positive =>
      rw [if_neg (fun negative => absurd (has.isNegative.mp negative) (by rintro ⟨⟩))]
      rfl

/-- The fields of the bits. -/
theorem exists_fields (has : HasBits x s n) :
    ∃ e f, x.toBits.toBitVec = fields s e f ∧ e.toNat * 2 ^ 52 + f.toNat = n := by
  have bits : x.toBits.toBitVec.toNat = s.toBitVec.toNat * 2 ^ 63 + n := has.bits
  have limit := has.le_infinity
  refine ⟨BitVec.ofNat 11 (n / 2 ^ 52), BitVec.ofNat 52 n, BitVec.eq_of_toNat_eq ?_, ?_⟩
  · rw [toNat_fields, BitVec.toNat_ofNat, BitVec.toNat_ofNat, bits]
    omega
  · rw [BitVec.toNat_ofNat, BitVec.toNat_ofNat]
    omega

theorem isNaN (has : HasBits x s n) : x.isNaN = false := by
  obtain ⟨e, f, bits, magnitude⟩ := has.exists_fields
  have limit := has.le_infinity
  change (shape x).isNaN = false
  rw [shape_of_fields bits]
  by_cases finite : e = -1#_
  · have zero : f = 0#_ := by
      subst finite
      have full : (-1#11 : BitVec 11).toNat = 2047 := rfl
      apply BitVec.eq_of_toNat_eq
      rw [full] at magnitude
      change f.toNat = 0
      omega
    rw [finite, zero]
    rfl
  · exact (plain_unpacked s f finite).2

theorem isFinite_iff (has : HasBits x s n) : x.isFinite = true ↔ n < 0x7ff0000000000000 := by
  obtain ⟨e, f, bits, magnitude⟩ := has.exists_fields
  have limit := has.le_infinity
  have below := f.isLt
  have small := e.isLt
  change (shape x).isFinite = true ↔ _
  rw [shape_of_fields bits, isFinite_unpacked]
  constructor
  · intro finite
    have limited : e.toNat ≠ 2047 := fun same => finite (BitVec.eq_of_toNat_eq same)
    omega
  · rintro less rfl
    have full : (-1#11 : BitVec 11).toNat = 2047 := rfl
    omega

end HasBits

theorem HasFields.hasBits {x : Float} {s : Sign} {e : BitVec 11} {f : BitVec 52}
    (has : HasFields x s e f) : HasBits x s (e.toNat * 2 ^ 52 + f.toNat) where
  bits := by rw [has.toNat_bits, Nat.add_assoc]
  le_infinity := has.below_infinity.le

def signOf (negative : Bool) : Sign := if negative then .negative else .positive

theorem signOf_isNegative {x : Float} {s : Sign} {n : Nat} (has : HasBits x s n) :
    signOf (isNegative x) = s := by
  unfold signOf
  cases s with
  | negative => rw [if_pos (has.isNegative.mpr rfl)]
  | positive => exact if_neg fun negative => nomatch has.isNegative.mp negative

theorem HasBits.unique {x y : Float} {s : Sign} {n : Nat} (left : HasBits x s n)
    (right : HasBits y s n) : x = y :=
  toBits_injective (UInt64.toNat_inj.mp (left.bits.trans right.bits.symm))

theorem HasBits.ofBits (s : Sign) {n : Nat} (le_infinity : n ≤ 0x7ff0000000000000) :
    HasBits (Float.ofBits (UInt64.ofNat (s.toBitVec.toNat * 2 ^ 63 + n))) s n where
  le_infinity := le_infinity
  bits := by
    obtain ⟨e, exponent⟩ : ∃ e : BitVec 11, e.toNat = n / 2 ^ 52 % 2 ^ 11 :=
      ⟨BitVec.ofNat 11 _, BitVec.toNat_ofNat ..⟩
    obtain ⟨f, fraction⟩ : ∃ f : BitVec 52, f.toNat = n % 2 ^ 52 :=
      ⟨BitVec.ofNat 52 _, BitVec.toNat_ofNat ..⟩
    have bit := s.toBitVec.isLt
    have plain : e = -1#_ → f = 0#_ := by
      intro full
      have maximal : e.toNat = 2047 := congrArg BitVec.toNat full
      exact BitVec.eq_of_toNat_eq (by rw [fraction]; change _ = 0; omega)
    have word : UInt64.ofNat (s.toBitVec.toNat * 2 ^ 63 + n) = UInt64.ofBitVec (fields s e f) := by
      apply UInt64.toNat_inj.mp
      change _ = (fields s e f).toNat
      rw [toNat_fields, UInt64.toNat_ofNat', exponent, fraction]
      omega
    rw [word]
    change (pack Format.binary64 (unpack Format.binary64 (fields s e f))).toNat = _
    rw [unpack_fields, pack_unpacked s e f plain, toNat_fields, exponent, fraction]
    omega

theorem hasBits_ofRatio (negative : Bool) (num den : Nat) :
    HasBits (ofRatio negative num den) (signOf negative) (magnitudeBits num den) := by
  have limit : magnitudeBits num den ≤ 0x7ff0000000000000 := by
    unfold magnitudeBits
    split
    · exact Nat.zero_le _
    · exact Nat.min_le_left ..
  have has := HasBits.ofBits (signOf negative) limit
  cases negative with
  | true => exact has
  | false => exact has

theorem hasBits_infinity (negative : Bool) :
    HasBits (infinity negative) (signOf negative) 0x7ff0000000000000 := by
  have has := HasBits.ofBits (signOf negative) (Nat.le_refl _)
  cases negative with
  | true => exact has
  | false => exact has

/-- The bits that stand for an unpacked number: infinite, zero, or finite in its unique form. -/
inductive StandsFor (s : Sign) : Nat → UnpackedFloat → Prop where
  | infinity : StandsFor s 0x7ff0000000000000 (.infinity s)
  | zero : StandsFor s 0 (.zero s)
  | finite {n m : Nat} {e : Int} (positive : 0 < m) (canonical : Canonical m e)
    (bits : (e + 1074).toNat * 2 ^ 52 + m = n) (below : n < 0x7ff0000000000000) :
    StandsFor s n (.finite s m e positive)

theorem exists_standsFor {x : Float} (number : x.isNaN = false) :
    ∃ s n, HasBits x s n ∧ StandsFor s n (shape x) := by
  rcases fields_unpacked x.toBits.toBitVec with ⟨s, e, f, bits⟩
  have whole : x.toBits.toNat = s.toBitVec.toNat * 2 ^ 63 + (e.toNat * 2 ^ 52 + f.toNat) := by
    rw [← Nat.add_assoc, ← toNat_fields, ← bits]
    rfl
  change (shape x).isNaN = false at number
  rw [shape_of_fields bits] at number ⊢
  cases e, f using fields_cases with
  | infinite => exact ⟨s, _, ⟨whole, le_rfl⟩, .infinity⟩
  | notANumber f nonzero =>
      rw [unpacked_notANumber s nonzero] at number
      cases number
  | zero => exact ⟨s, _, ⟨whole, Nat.zero_le _⟩, .zero⟩
  | subnormal f nonzero =>
      have has : HasFields x s 0#_ f := ⟨bits, by decide⟩
      have limit := f.isLt
      refine ⟨s, _, has.hasBits, ?_⟩
      rw [unpacked_subnormal s nonzero]
      exact .finite _ ⟨by omega, le_rfl, .inr rfl⟩ rfl has.below_infinity
  | normal e f finite nonzero =>
      have has : HasFields x s e f := ⟨bits, finite⟩
      have limit := f.isLt
      have hidden := toNat_hidden f
      have positive : e.toNat ≠ 0 := fun zero => nonzero (BitVec.eq_of_toNat_eq zero)
      refine ⟨s, _, has.hasBits, ?_⟩
      rw [unpacked_normal s f finite nonzero]
      exact .finite _ ⟨by omega, by omega, .inl (by omega)⟩ (by omega) has.below_infinity

/-- Numbers in their unique forms are ordered by exponents first, as their bits are. -/
theorem compare_canonical {m m' : Nat} {e e' : Int} (canonical : Canonical m e)
    (canonical' : Canonical m' e') :
    (compare e e').then (compare m m') =
      compare ((e + 1074).toNat * 2 ^ 52 + m) ((e' + 1074).toNat * 2 ^ 52 + m') := by
  rcases canonical with ⟨short, low, full⟩
  rcases canonical' with ⟨short', low', full'⟩
  rcases lt_trichotomy e e' with less | rfl | more
  · rw [compare_lt_iff_lt.mpr less, eq_comm]
    exact compare_lt_iff_lt.mpr (by omega)
  · rw [compare_eq_iff_eq.mpr rfl]
    change compare m m' = _
    rcases lt_trichotomy m m' with less | rfl | more
    · rw [compare_lt_iff_lt.mpr less, eq_comm]
      exact compare_lt_iff_lt.mpr (by omega)
    · rw [compare_eq_iff_eq.mpr rfl, eq_comm]
      exact compare_eq_iff_eq.mpr rfl
    · rw [compare_gt_iff_gt.mpr more, eq_comm]
      exact compare_gt_iff_gt.mpr (by omega)
  · rw [compare_gt_iff_gt.mpr more, eq_comm]
    exact compare_gt_iff_gt.mpr (by omega)

theorem eq_compare {order : Ordering} {a b : Int}
    (agrees : order = .lt ∧ a < b ∨ order = .eq ∧ a = b ∨ order = .gt ∧ b < a) :
    some order = some (compare a b) := by
  rcases agrees with ⟨rfl, less⟩ | ⟨rfl, same⟩ | ⟨rfl, more⟩
  · rw [compare_lt_iff_lt.mpr less]
  · rw [compare_eq_iff_eq.mpr same]
  · rw [compare_gt_iff_gt.mpr more]

theorem compare_standsFor {s s' : Sign} {n n' : Nat} {u u' : UnpackedFloat}
    (stands : StandsFor s n u) (stands' : StandsFor s' n' u') :
    u.compare u' = some (compare (s.apply n) (s'.apply n')) := by
  cases stands with
  | infinity =>
    cases stands' with
    | infinity => cases s <;> cases s' <;> rfl
    | zero => cases s <;> cases s' <;> rfl
    | finite positive canonical bits below =>
      cases s <;> cases s' <;> exact eq_compare (by simp [Sign.apply]; omega)
  | zero =>
    cases stands' with
    | infinity => cases s <;> cases s' <;> rfl
    | zero => cases s <;> cases s' <;> rfl
    | finite positive canonical bits below =>
      cases s <;> cases s' <;> exact eq_compare (by simp [Sign.apply]; omega)
  | finite positive canonical bits below =>
    cases stands' with
    | infinity => cases s <;> cases s' <;> exact eq_compare (by simp [Sign.apply]; omega)
    | zero => cases s <;> cases s' <;> exact eq_compare (by simp [Sign.apply]; omega)
    | finite positive' canonical' bits' below' =>
      have magnitudes := compare_canonical canonical canonical'
      rw [bits, bits'] at magnitudes
      cases s <;> cases s'
      · change some ((compare _ _).then (compare _ _)).swap = _
        rw [magnitudes]
        rcases lt_trichotomy n n' with less | rfl | more
        · rw [compare_lt_iff_lt.mpr less]
          exact eq_compare (.inr (.inr ⟨rfl, Int.neg_lt_neg (Int.ofNat_lt.mpr less)⟩))
        · rw [compare_eq_iff_eq.mpr rfl]
          exact eq_compare (.inr (.inl ⟨rfl, rfl⟩))
        · rw [compare_gt_iff_gt.mpr more]
          exact eq_compare (.inl ⟨rfl, Int.neg_lt_neg (Int.ofNat_lt.mpr more)⟩)
      · exact eq_compare (by simp [Sign.apply]; omega)
      · exact eq_compare (by simp [Sign.apply]; omega)
      · change some ((compare _ _).then (compare _ _)) = _
        rw [magnitudes]
        rcases lt_trichotomy n n' with less | rfl | more
        · rw [compare_lt_iff_lt.mpr less]
          exact eq_compare (.inl ⟨rfl, Int.ofNat_lt.mpr less⟩)
        · rw [compare_eq_iff_eq.mpr rfl]
          exact eq_compare (.inr (.inl ⟨rfl, rfl⟩))
        · rw [compare_gt_iff_gt.mpr more]
          exact eq_compare (.inr (.inr ⟨rfl, Int.ofNat_lt.mpr more⟩))

section Comparison

variable {x y : Float}

theorem compare_rank (number : x.isNaN = false) (number' : y.isNaN = false) :
    (shape x).compare (shape y) = some (compare (rank x) (rank y)) := by
  obtain ⟨s, n, has, stands⟩ := exists_standsFor number
  obtain ⟨s', n', has', stands'⟩ := exists_standsFor number'
  rw [has.rank_eq, has'.rank_eq]
  exact compare_standsFor stands stands'

theorem lt_iff_compare : x < y ↔ (shape x).compare (shape y) = some .lt :=
  decide_eq_true_iff.trans beq_iff_eq

theorem le_iff_compare : x ≤ y ↔ ((shape x).compare (shape y)).any (·.isLE) = true :=
  decide_eq_true_iff

theorem lt_iff_rank (number : x.isNaN = false) (number' : y.isNaN = false) :
    x < y ↔ rank x < rank y := by
  rw [lt_iff_compare, compare_rank number number', Option.some.injEq, compare_lt_iff_lt]

theorem le_iff_rank (number : x.isNaN = false) (number' : y.isNaN = false) :
    x ≤ y ↔ rank x ≤ rank y := by
  rw [le_iff_compare, compare_rank number number', Option.any_some, Ordering.isLE_iff_ne_gt, ← not_lt]
  exact not_congr compare_gt_iff_gt

theorem compare_notANumber (u : UnpackedFloat) :
    UnpackedFloat.compare .notANumber u = none ∧ u.compare .notANumber = none := by
  refine ⟨by cases u <;> rfl, ?_⟩
  cases u with
  | infinity s => cases s <;> rfl
  | finite s m e positive => cases s <;> rfl
  | _ => rfl

theorem shape_of_isNaN (isNaN : x.isNaN = true) : shape x = .notANumber := by
  change (shape x).isNaN = true at isNaN
  generalize shape x = u at isNaN ⊢
  cases u with
  | notANumber => rfl
  | _ => cases isNaN

/-- Only one float is no number. -/
theorem eq_nan (isNaN : x.isNaN = true) : x = nan := by
  obtain ⟨s, e, f, bits⟩ := fields_unpacked x.toBits.toBitVec
  have shown : shape x = unpacked s e f := shape_of_fields bits
  change (shape x).isNaN = true at isNaN
  rw [shown] at isNaN
  have special : e = -1#_ ∧ f ≠ 0#_ := by
    by_cases finite : e = -1#_
    · refine ⟨finite, ?_⟩
      rintro rfl
      rw [finite] at isNaN
      cases isNaN
    · rw [(plain_unpacked s f finite).2] at isNaN
      cases isNaN
  apply toBits_injective
  apply UInt64.toBitVec_inj.mp
  have valid := x.toModel.valid.eq_packedNaN
  change @unpackExponent Format.binary64 x.toBits.toBitVec = _ →
    @unpackMantissa Format.binary64 x.toBits.toBitVec ≠ _ → x.toBits.toBitVec = _ at valid
  rw [bits, unpackExponent_packComponents, unpackMantissa_packComponents] at valid
  rw [bits, valid special.1 special.2]
  rfl

theorem eq_infinity (isInf : x.isInf = true) : x = infinity (isNegative x) := by
  change (shape x).isInf = true at isInf
  have number : x.isNaN = false := by
    refine Bool.eq_false_iff.mpr fun isNaN => ?_
    rw [shape_of_isNaN isNaN] at isInf
    cases isInf
  obtain ⟨s, n, has, stands⟩ := exists_standsFor number
  generalize shape x = u at isInf stands
  cases stands with
  | infinity =>
      have other := hasBits_infinity (isNegative x)
      rw [signOf_isNegative has] at other
      exact has.unique other
  | zero => cases isInf
  | finite => cases isInf

/-- What is no number is neither below nor above anything. -/
theorem isNaN_of_lt (less : x < y) : x.isNaN = false ∧ y.isNaN = false := by
  rw [lt_iff_compare] at less
  constructor
  · refine Bool.eq_false_iff.mpr fun isNaN => ?_
    rw [shape_of_isNaN isNaN, (compare_notANumber _).1] at less
    cases less
  · refine Bool.eq_false_iff.mpr fun isNaN => ?_
    rw [shape_of_isNaN isNaN, (compare_notANumber _).2] at less
    cases less

theorem isNaN_of_isFinite (finite : x.isFinite = true) : x.isNaN = false := by
  obtain ⟨s, e, f, has⟩ := HasFields.of_isFinite finite
  exact has.isNaN

theorem isFinite_iff_rank (number : x.isNaN = false) :
    x.isFinite = true ↔ |rank x| < 0x7ff0000000000000 := by
  obtain ⟨s, n, has, -⟩ := exists_standsFor number
  have size : |s.apply (n : Int)| = n := by
    cases s with
    | negative => simp [Sign.apply]
    | positive => simp [Sign.apply]
  rw [has.isFinite_iff, has.rank_eq, size]
  norm_cast

/-- What lies between two finite numbers is finite. -/
theorem isFinite_of_between {low high : Float} (number : x.isNaN = false)
    (finite : low.isFinite = true) (finite' : high.isFinite = true) (above : rank low ≤ rank x)
    (below : rank x ≤ rank high) : x.isFinite = true := by
  have bound := abs_lt.mp ((isFinite_iff_rank (isNaN_of_isFinite finite)).mp finite)
  have bound' := abs_lt.mp ((isFinite_iff_rank (isNaN_of_isFinite finite')).mp finite')
  rw [isFinite_iff_rank number, abs_lt]
  exact ⟨bound.1.trans_le above, below.trans_lt bound'.2⟩

end Comparison

section Value

variable {x y : Float}

/-- Rounding keeps what is a number already, and only the infinite one bounds it. -/
theorem rounded_of_canonical {m : Nat} {e : Int} (canonical : Canonical m e) :
    rounded (m * 2 ^ e) = min 0x7ff0000000000000 ((e + 1074).toNat * 2 ^ 52 + m : Nat) := by
  rcases Nat.eq_zero_or_pos m with rfl | positive
  · obtain rfl : e = -1074 := canonical.normal.resolve_left (by decide)
    simp
  · rcases @scaleDown_spec m 1 (-e) Nat.one_pos with ⟨denPositive, same⟩
    have same : ((scaleDown m 1 (-e)).1 : ℚ) / (scaleDown m 1 (-e)).2 = m * 2 ^ e := by
      rw [same]
      simp
    have numPositive : 0 < (scaleDown m 1 (-e)).1 := by
      rw [scaleDown, Nat.shiftLeft_eq]
      exact Nat.mul_pos positive (Nat.two_pow_pos _)
    rw [rounded_of_nonneg (by positivity) denPositive same,
      magnitudeBits_of_canonical canonical numPositive denPositive same]

theorem HasFields.value_eq {s : Sign} {e : BitVec 11} {f : BitVec 52} (has : HasFields x s e f) :
    value x = s.apply 1 * (significand x * 2 ^ exponent x) := by
  rw [value]
  cases s with
  | negative =>
      rw [if_pos (has.isNegative.mpr rfl)]
      simp [Sign.apply]
  | positive =>
      rw [if_neg (fun negative => nomatch has.isNegative.mp negative)]
      simp [Sign.apply]

theorem HasFields.rounded_eq {s : Sign} {e : BitVec 11} {f : BitVec 52} (has : HasFields x s e f) :
    rounded (significand x * 2 ^ exponent x) = (e.toNat * 2 ^ 52 + f.toNat : Nat) := by
  rw [rounded_of_canonical has.canonical, has.bits_of_significand]
  exact congrArg Nat.cast (min_eq_right has.below_infinity.le)

theorem rank_eq_rounded (finite : x.isFinite = true) : rank x = rounded (value x) := by
  obtain ⟨s, e, f, has⟩ := HasFields.of_isFinite finite
  rw [has.hasBits.rank_eq, has.value_eq]
  cases s with
  | negative => simp [Sign.apply, rounded_neg, has.rounded_eq]
  | positive => simp [Sign.apply, has.rounded_eq]

theorem value_eq_of_rank_eq (finite : x.isFinite = true) (finite' : y.isFinite = true)
    (same : rank x = rank y) : value x = value y := by
  obtain ⟨s, e, f, has⟩ := HasFields.of_isFinite finite
  obtain ⟨s', e', f', has'⟩ := HasFields.of_isFinite finite'
  rw [has.hasBits.rank_eq, has'.hasBits.rank_eq] at same
  have limit := f.isLt
  have limit' := f'.isLt
  have fields : e.toNat = e'.toNat ∧ f.toNat = f'.toNat := by
    cases s <;> cases s' <;> simp only [Sign.apply] at same <;> omega
  have significands : significand x = significand y := by
    rw [has.significand_eq, has'.significand_eq, fields.1, fields.2]
  have exponents : exponent x = exponent y := by
    rw [has.exponent_eq, has'.exponent_eq, fields.1]
  rw [has.value_eq, has'.value_eq, significands, exponents]
  by_cases zero : significand y = 0
  · simp [zero]
  · -- numbers of both signs have one rank only if they are zero
    have signs : s = s' := by
      have nonzero : e'.toNat * 2 ^ 52 + f'.toNat ≠ 0 := by
        intro clear
        rw [has'.significand_eq, if_pos (by omega)] at zero
        omega
      cases s <;> cases s' <;> simp only [Sign.apply] at same <;> first | rfl | omega
    rw [signs]

theorem value_le_iff (finite : x.isFinite = true) (finite' : y.isFinite = true) :
    value x ≤ value y ↔ rank x ≤ rank y := by
  have forward : ∀ {x y : Float}, x.isFinite = true → y.isFinite = true → value x ≤ value y →
      rank x ≤ rank y := by
    intro x y finite finite' le
    rw [rank_eq_rounded finite, rank_eq_rounded finite']
    exact rounded_mono le
  refine ⟨forward finite finite', fun le => ?_⟩
  by_contra less
  have ge := forward finite' finite (not_le.mp less).le
  exact less (value_eq_of_rank_eq finite finite' (le_antisymm le ge)).le

theorem value_lt_iff (finite : x.isFinite = true) (finite' : y.isFinite = true) :
    value x < value y ↔ x < y := by
  rw [lt_iff_rank (isNaN_of_isFinite finite) (isNaN_of_isFinite finite'), ← not_le, ← not_le,
    value_le_iff finite' finite]

/-- Only the two zeros are different numbers of one value. -/
theorem eq_of_value_eq (finite : x.isFinite = true) (finite' : y.isFinite = true)
    (same : value x = value y) (zero : value x = 0 → isNegative x = isNegative y) : x = y := by
  obtain ⟨s, e, f, has⟩ := HasFields.of_isFinite finite
  obtain ⟨s', e', f', has'⟩ := HasFields.of_isFinite finite'
  have ranks : rank x = rank y := by rw [rank_eq_rounded finite, rank_eq_rounded finite', same]
  rw [has.hasBits.rank_eq, has'.hasBits.rank_eq] at ranks
  have limit := f.isLt
  have limit' := f'.isLt
  have fields : e.toNat = e'.toNat ∧ f.toNat = f'.toNat := by
    cases s <;> cases s' <;> simp only [Sign.apply] at ranks <;> omega
  have signs : s = s' := by
    by_cases nothing : value x = 0
    · have agree := zero nothing
      cases s with
      | negative => exact (has'.isNegative.mp (agree ▸ has.isNegative.mpr rfl)).symm
      | positive =>
        cases s' with
        | negative => exact has.isNegative.mp (agree ▸ has'.isNegative.mpr rfl)
        | positive => rfl
    · have positive : e.toNat * 2 ^ 52 + f.toNat ≠ 0 := by
        intro clear
        refine nothing ?_
        have none : significand x = 0 := by
          rw [has.significand_eq, if_pos (by omega)]
          omega
        simp [value, none]
      cases s <;> cases s' <;> simp only [Sign.apply] at ranks <;> first | rfl | omega
  obtain rfl := signs
  obtain rfl : e = e' := BitVec.eq_of_toNat_eq fields.1
  obtain rfl : f = f' := BitVec.eq_of_toNat_eq fields.2
  exact has.unique has'

theorem isNegative_of_pos (positive : 0 < value x) : isNegative x = false := by
  rw [Bool.eq_false_iff]
  intro negative
  rw [value, if_pos negative] at positive
  have nonneg : (0 : ℚ) ≤ significand x * 2 ^ exponent x := by positivity
  linarith

theorem value_neg (finite : x.isFinite = true) : value (-x) = -value x := by
  obtain ⟨s, e, f, has⟩ := HasFields.of_isFinite finite
  have significands : significand (-x) = significand x := by
    rw [has.significand_eq, has.neg.significand_eq]
  have exponents : exponent (-x) = exponent x := by rw [has.exponent_eq, has.neg.exponent_eq]
  rw [has.value_eq, has.neg.value_eq, significands, exponents, apply_neg]
  push_cast
  ring

end Value

end FractalBreeder.Binary64
