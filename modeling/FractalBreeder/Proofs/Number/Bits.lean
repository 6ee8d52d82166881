import Mathlib.Algebra.Group.Nat.Defs
import FractalBreeder.Number.Basic

/-!
The bits of a finite binary64 number: a sign, eleven exponent bits and fifty-two fraction bits. The
sign changes alone when a number is negated or made positive.
-/
namespace FractalBreeder.Binary64

open Float.Model (Format UnpackedFloat)
open Float.Model.UnpackedFloat

abbrev fields (s : Sign) (e : BitVec 11) (f : BitVec 52) : BitVec 64 :=
  packComponents Format.binary64 s e f

theorem ofBitVec_toBitVec (s : Sign) : Sign.ofBitVec s.toBitVec = s := by
  cases s <;> rfl

theorem unpackSign_fields (s : Sign) (e : BitVec 11) (f : BitVec 52) :
    @unpackSign Format.binary64 (fields s e f) = s.toBitVec := by
  change (s.toBitVec ++ e ++ f).extractLsb' 63 1 = s.toBitVec
  rw [BitVec.extractLsb'_append_eq_of_le (by decide),
    BitVec.extractLsb'_append_eq_of_le (by decide)]
  cases s <;> rfl

theorem toNat_fields (s : Sign) (e : BitVec 11) (f : BitVec 52) :
    (fields s e f).toNat = s.toBitVec.toNat * 2 ^ 63 + e.toNat * 2 ^ 52 + f.toNat := by
  change (s.toBitVec ++ e ++ f).toNat = _
  rw [BitVec.toNat_append, BitVec.toNat_append, ← Nat.shiftLeft_add_eq_or_of_lt e.isLt,
    ← Nat.shiftLeft_add_eq_or_of_lt f.isLt, Nat.shiftLeft_eq, Nat.shiftLeft_eq]
  omega

theorem fields_unpacked (b : BitVec 64) :
    ∃ s e f, b = fields s e f := by
  refine ⟨Sign.ofBitVec (b.extractLsb' 63 1), b.extractLsb' 52 11, b.extractLsb' 0 52, ?_⟩
  have sign : ∀ c : BitVec 1, (Sign.ofBitVec c).toBitVec = c := by decide
  apply BitVec.eq_of_toNat_eq
  have limit := b.isLt
  rw [toNat_fields, sign]
  simp only [BitVec.extractLsb'_toNat, Nat.shiftRight_eq_div_pow]
  omega

theorem pack_finite (s : Sign) (m : Nat) (e : Int) (positive : 0 < m) :
    pack Format.binary64 (.finite s m e positive) =
      if 2 ^ 11 ≤ (e + 1023 + 52).toNat + 1 then packedInfinity Format.binary64 s
      else if m.log2 + 1 = 53 then
        fields s (BitVec.ofNat 11 (e + 1023 + 52).toNat) (BitVec.ofNat 52 m)
      else fields s 0#11 (BitVec.ofNat 52 m) :=
  rfl

theorem pack_subnormal (s : Sign) (m : Nat) (small : m < 2 ^ 52) (positive : 0 < m) :
    pack Format.binary64 (.finite s m (-1074) positive) = fields s 0#_ (BitVec.ofNat 52 m) := by
  have short : m.log2 < 52 := (Nat.log2_lt (by omega)).mpr small
  have hidden : ¬ m.log2 + 1 = 53 := by omega
  have inside : ¬ 2 ^ 11 ≤ (-1074 + 1023 + 52 : Int).toNat + 1 := by decide
  rw [pack_finite, if_neg inside, if_neg hidden]

theorem pack_normal (s : Sign) (m : Nat) (e : BitVec 11) (low : 2 ^ 52 ≤ m) (high : m < 2 ^ 53)
    (finite : e ≠ -1#_) (positive : 0 < m) :
    pack Format.binary64 (.finite s m (e.toNat - 1075) positive) =
      fields s e (BitVec.ofNat 52 m) := by
  have full : m.log2 = 52 := (Nat.log2_eq_iff (by omega)).mpr ⟨low, high⟩
  have limited : e.toNat ≠ 2047 := by
    intro same
    exact finite (BitVec.eq_of_toNat_eq same)
  have back : ((e.toNat : Int) - 1075 + 1023 + 52).toNat = e.toNat := by omega
  have limit := e.isLt
  have inside : ¬ 2 ^ 11 ≤ ((e.toNat : Int) - 1075 + 1023 + 52).toNat + 1 := by omega
  rw [pack_finite, if_neg inside, if_pos (congrArg (· + 1) full), back,
    BitVec.ofNat_toNat, BitVec.setWidth_eq]

theorem toNat_hidden (f : BitVec 52) : (1#1 ++ f).toNat = 2 ^ 52 + f.toNat := by
  rw [BitVec.toNat_append, ← Nat.shiftLeft_add_eq_or_of_lt f.isLt, Nat.shiftLeft_eq]
  rfl

theorem hidden_pos (f : BitVec 52) : 0 < (1#1 ++ f).toNat := by
  rw [toNat_hidden]
  omega

/-- What the fields stand for. -/
def unpacked (s : Sign) (e : BitVec 11) (f : BitVec 52) : UnpackedFloat :=
  if e = -1#_ then
    if f = 0#_ then .infinity s else .notANumber
  else if e = 0#_ then
    if zero : f = 0#_ then .zero s
    else .finite s f.toNat (e.toNat - 1075 + 1) (BitVec.toNat_pos_of_ne_zero zero)
  else .finite s (1#1 ++ f).toNat (e.toNat - 1075) (hidden_pos f)

theorem unpack_fields (s : Sign) (e : BitVec 11) (f : BitVec 52) :
    unpack Format.binary64 (fields s e f) = unpacked s e f := by
  change unpacked (Sign.ofBitVec (@unpackSign Format.binary64 (fields s e f)))
    (@unpackExponent Format.binary64 (fields s e f))
    (@unpackMantissa Format.binary64 (fields s e f)) = _
  rw [unpackSign_fields, ofBitVec_toBitVec, unpackExponent_packComponents,
    unpackMantissa_packComponents]

theorem unpacked_notANumber (s : Sign) {f : BitVec 52} (nonzero : f ≠ 0#_) :
    unpacked s (-1#_) f = .notANumber :=
  (if_pos rfl).trans (if_neg nonzero)

theorem unpacked_subnormal (s : Sign) {f : BitVec 52} (nonzero : f ≠ 0#_) :
    unpacked s 0#_ f = .finite s f.toNat (-1074) (BitVec.toNat_pos_of_ne_zero nonzero) :=
  (if_neg (by decide)).trans ((if_pos rfl).trans (dif_neg nonzero))

theorem unpacked_normal (s : Sign) {e : BitVec 11} (f : BitVec 52) (finite : e ≠ -1#_)
    (nonzero : e ≠ 0#_) :
    unpacked s e f = .finite s (1#1 ++ f).toNat (e.toNat - 1075) (hidden_pos f) :=
  (if_neg finite).trans (if_neg nonzero)

theorem fields_cases {motive : BitVec 11 → BitVec 52 → Prop} (e : BitVec 11) (f : BitVec 52)
    (infinite : motive (-1#_) 0#_) (notANumber : ∀ f, f ≠ 0#_ → motive (-1#_) f)
    (zero : motive 0#_ 0#_) (subnormal : ∀ f, f ≠ 0#_ → motive 0#_ f)
    (normal : ∀ e f, e ≠ -1#_ → e ≠ 0#_ → motive e f) : motive e f := by
  by_cases top : e = -1#_
  · subst top
    by_cases clear : f = 0#_
    · rw [clear]
      exact infinite
    · exact notANumber f clear
  · by_cases bottom : e = 0#_
    · subst bottom
      by_cases clear : f = 0#_
      · rw [clear]
        exact zero
      · exact subnormal f clear
    · exact normal e f top bottom

theorem pack_unpacked (s : Sign) (e : BitVec 11) (f : BitVec 52) (plain : e = -1#_ → f = 0#_) :
    pack Format.binary64 (unpacked s e f) = fields s e f := by
  cases e, f using fields_cases with
  | infinite => rfl
  | notANumber f nonzero => exact absurd (plain rfl) nonzero
  | zero => rfl
  | subnormal f nonzero =>
      rw [unpacked_subnormal s nonzero, pack_subnormal s f.toNat f.isLt, BitVec.ofNat_toNat,
        BitVec.setWidth_eq]
  | normal e f finite nonzero =>
      have value := toNat_hidden f
      have limit := f.isLt
      have cut : BitVec.ofNat 52 (1#1 ++ f).toNat = f := by
        apply BitVec.eq_of_toNat_eq
        rw [BitVec.toNat_ofNat]
        omega
      rw [unpacked_normal s f finite nonzero, pack_normal s _ e (by omega) (by omega) finite, cut]

theorem resign_unpacked {change : UnpackedFloat → UnpackedFloat} {s t : Sign}
    (notANumber : change .notANumber = .notANumber) (infinity : change (.infinity s) = .infinity t)
    (zero : change (.zero s) = .zero t)
    (finite : ∀ m e positive, change (.finite s m e positive) = .finite t m e positive)
    (e : BitVec 11) (f : BitVec 52) : change (unpacked s e f) = unpacked t e f := by
  cases e, f using fields_cases with
  | infinite => exact infinity
  | notANumber f nonzero =>
      rw [unpacked_notANumber s nonzero, unpacked_notANumber t nonzero]
      exact notANumber
  | zero => exact zero
  | subnormal f nonzero =>
      rw [unpacked_subnormal s nonzero, unpacked_subnormal t nonzero]
      apply finite
  | normal e f top bottom =>
      rw [unpacked_normal s f top bottom, unpacked_normal t f top bottom]
      apply finite

theorem neg_unpacked (s : Sign) (e : BitVec 11) (f : BitVec 52) :
    (unpacked s e f).neg = unpacked (-s) e f :=
  resign_unpacked rfl rfl rfl (fun _ _ _ => rfl) e f

theorem abs_unpacked (s : Sign) (e : BitVec 11) (f : BitVec 52) :
    (unpacked s e f).abs = unpacked .positive e f :=
  resign_unpacked rfl rfl rfl (fun _ _ _ => rfl) e f

theorem isFinite_unpacked (s : Sign) (e : BitVec 11) (f : BitVec 52) :
    (unpacked s e f).isFinite = true ↔ e ≠ -1#_ := by
  cases e, f using fields_cases with
  | infinite => exact ⟨nofun, fun finite => absurd rfl finite⟩
  | notANumber f nonzero =>
      rw [unpacked_notANumber s nonzero]
      exact ⟨nofun, fun finite => absurd rfl finite⟩
  | zero => exact ⟨fun _ => by decide, fun _ => rfl⟩
  | subnormal f nonzero =>
      rw [unpacked_subnormal s nonzero]
      exact ⟨fun _ => by decide, fun _ => rfl⟩
  | normal e f finite nonzero =>
      rw [unpacked_normal s f finite nonzero]
      exact ⟨fun _ => finite, fun _ => rfl⟩

theorem plain_unpacked (s : Sign) {e : BitVec 11} (f : BitVec 52) (finite : e ≠ -1#_) :
    (unpacked s e f).isInf = false ∧ (unpacked s e f).isNaN = false := by
  cases e, f using fields_cases with
  | infinite => exact absurd rfl finite
  | notANumber f nonzero => exact absurd rfl finite
  | zero => exact ⟨rfl, rfl⟩
  | subnormal f nonzero =>
      rw [unpacked_subnormal s nonzero]
      exact ⟨rfl, rfl⟩
  | normal e f finite nonzero =>
      rw [unpacked_normal s f finite nonzero]
      exact ⟨rfl, rfl⟩

/-- A finite number has the given fields. -/
structure HasFields (x : Float) (s : Sign) (e : BitVec 11) (f : BitVec 52) : Prop where
  bits : x.toBits.toBitVec = fields s e f
  finite : e ≠ -1#_

theorem toBits_injective {x y : Float} (same : x.toBits = y.toBits) : x = y := by
  rcases x with ⟨⟨a, _⟩⟩
  rcases y with ⟨⟨b, _⟩⟩
  change a = b at same
  subst same
  rfl

/-- The sign is the first bit. -/
theorem isNegative_of_bits {x : Float} {s : Sign} {n : Nat}
    (bits : x.toBits.toNat = s.toBitVec.toNat * 2 ^ 63 + n) (below : n < 2 ^ 63) :
    isNegative x = true ↔ s = .negative := by
  have top : (x.toBits >>> 63).toNat = s.toBitVec.toNat := by
    rw [UInt64.toNat_shiftRight]
    change x.toBits.toNat >>> 63 = _
    rw [Nat.shiftRight_eq_div_pow]
    omega
  unfold isNegative
  rw [beq_iff_eq, ← UInt64.toNat_inj, top]
  cases s with
  | negative => exact iff_of_true rfl rfl
  | positive => exact iff_of_false (by decide) (by rintro ⟨⟩)

namespace HasFields

variable {x y : Float} {s : Sign} {e : BitVec 11} {f : BitVec 52}

theorem unique (left : HasFields x s e f) (right : HasFields y s e f) : x = y :=
  toBits_injective (UInt64.toBitVec_inj.mp (left.bits.trans right.bits.symm))

theorem ofBits (s : Sign) (e : BitVec 11) (f : BitVec 52) (finite : e ≠ -1#_) :
    HasFields (Float.ofBits (UInt64.ofBitVec (fields s e f))) s e f where
  bits := by
    change pack Format.binary64 (unpack Format.binary64 (fields s e f)) = _
    rw [unpack_fields, pack_unpacked s e f (fun infinite => absurd infinite finite)]
  finite := finite

theorem isFinite (has : HasFields x s e f) : x.isFinite = true := by
  change (unpack Format.binary64 x.toBits.toBitVec).isFinite = true
  rw [has.bits, unpack_fields]
  exact (isFinite_unpacked s e f).mpr has.finite

theorem isInf (has : HasFields x s e f) : x.isInf = false := by
  change (unpack Format.binary64 x.toBits.toBitVec).isInf = false
  rw [has.bits, unpack_fields]
  exact (plain_unpacked s f has.finite).1

theorem isNaN (has : HasFields x s e f) : x.isNaN = false := by
  change (unpack Format.binary64 x.toBits.toBitVec).isNaN = false
  rw [has.bits, unpack_fields]
  exact (plain_unpacked s f has.finite).2

theorem neg (has : HasFields x s e f) : HasFields (-x) (-s) e f where
  bits := by
    change pack Format.binary64 (unpack Format.binary64 x.toBits.toBitVec).neg = _
    rw [has.bits, unpack_fields, neg_unpacked,
      pack_unpacked (-s) e f (fun infinite => absurd infinite has.finite)]
  finite := has.finite

theorem abs (has : HasFields x s e f) : HasFields x.abs .positive e f where
  bits := by
    change pack Format.binary64 (unpack Format.binary64 x.toBits.toBitVec).abs = _
    rw [has.bits, unpack_fields, abs_unpacked,
      pack_unpacked .positive e f (fun infinite => absurd infinite has.finite)]
  finite := has.finite

theorem of_isFinite (finite : x.isFinite = true) : ∃ s e f, HasFields x s e f := by
  rcases fields_unpacked x.toBits.toBitVec with ⟨s, e, f, bits⟩
  change (unpack Format.binary64 x.toBits.toBitVec).isFinite = true at finite
  rw [bits, unpack_fields] at finite
  exact ⟨s, e, f, bits, (isFinite_unpacked s e f).mp finite⟩

theorem toNat_bits (has : HasFields x s e f) :
    x.toBits.toNat = s.toBitVec.toNat * 2 ^ 63 + e.toNat * 2 ^ 52 + f.toNat := by
  rw [← toNat_fields, ← has.bits]
  rfl

theorem biased (has : HasFields x s e f) : Binary64.biased x = e.toNat := by
  have whole := has.toNat_bits
  have limit := e.isLt
  have fraction := f.isLt
  unfold Binary64.biased
  rw [UInt64.toNat_and, UInt64.toNat_shiftRight]
  change x.toBits.toNat >>> 52 &&& (2 ^ 11 - 1) = _
  rw [Nat.and_two_pow_sub_one_eq_mod, Nat.shiftRight_eq_div_pow]
  omega

theorem fraction (has : HasFields x s e f) : (x.toBits &&& 0xfffffffffffff).toNat = f.toNat := by
  have whole := has.toNat_bits
  have limit := e.isLt
  have fraction := f.isLt
  rw [UInt64.toNat_and]
  change x.toBits.toNat &&& (2 ^ 52 - 1) = _
  rw [Nat.and_two_pow_sub_one_eq_mod]
  omega

theorem isNegative (has : HasFields x s e f) :
    Binary64.isNegative x = true ↔ s = .negative := by
  have limit := e.isLt
  have fraction := f.isLt
  have below : e.toNat * 2 ^ 52 + f.toNat < 2 ^ 63 := by omega
  exact isNegative_of_bits (by rw [has.toNat_bits, Nat.add_assoc]) below

end HasFields

theorem eq_neg_abs {x : Float} (finite : x.isFinite = true) (negative : isNegative x = true) :
    x = -x.abs := by
  rcases HasFields.of_isFinite finite with ⟨s, e, f, has⟩
  obtain rfl := has.isNegative.mp negative
  exact has.unique has.abs.neg

theorem eq_abs {x : Float} (finite : x.isFinite = true) (positive : isNegative x = false) :
    x = x.abs := by
  rcases HasFields.of_isFinite finite with ⟨s, e, f, has⟩
  cases s with
  | negative =>
      rw [has.isNegative.mpr rfl] at positive
      cases positive
  | positive => exact has.unique has.abs

theorem isFinite_abs {x : Float} (finite : x.isFinite = true) : x.abs.isFinite = true := by
  rcases HasFields.of_isFinite finite with ⟨s, e, f, has⟩
  exact has.abs.isFinite

theorem isFinite_neg {x : Float} (finite : x.isFinite = true) : (-x).isFinite = true := by
  rcases HasFields.of_isFinite finite with ⟨s, e, f, has⟩
  exact has.neg.isFinite

theorem float_cases (x : Float) :
    x.isNaN = true ∨ x.isNaN = false ∧ x.isInf = true ∨ x.isFinite = true := by
  change (unpack Format.binary64 x.toBits.toBitVec).isNaN = true ∨
    (unpack Format.binary64 x.toBits.toBitVec).isNaN = false ∧
      (unpack Format.binary64 x.toBits.toBitVec).isInf = true ∨
    (unpack Format.binary64 x.toBits.toBitVec).isFinite = true
  cases unpack Format.binary64 x.toBits.toBitVec with
  | notANumber => exact .inl rfl
  | infinity s => exact .inr (.inl ⟨rfl, rfl⟩)
  | zero s => exact .inr (.inr rfl)
  | finite s m e positive => exact .inr (.inr rfl)

theorem negated_float {x : Float} (finite : x.isFinite = true) :
    (Number.float x).negated = .float (-x) := by
  rcases HasFields.of_isFinite finite with ⟨s, e, f, has⟩
  simp only [Number.negated, has.isNaN, Bool.false_eq_true, ↓reduceIte]

end FractalBreeder.Binary64
