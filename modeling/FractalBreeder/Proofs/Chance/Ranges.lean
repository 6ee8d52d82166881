import Mathlib.Algebra.Order.Field.Basic
import FractalBreeder.Proofs.Chance.Ensures
import FractalBreeder.Heredity.Growth
import FractalBreeder.Proofs.Number.Arithmetic

/-!
Choices that never ask for an unusable range. A number from a usable range is finite and lies in it,
however the words fall and however the arithmetic of the choice rounds.
-/
namespace FractalBreeder

open Binary64
open Float.Model.UnpackedFloat (Sign)

theorem Binary64.value_zero : value 0 = 0 := by
  have none : significand 0 = 0 := rfl
  simp [value, none]

theorem Binary64.value_of_parts {x : Float} {m : Nat} {e : Int} (positive : isNegative x = false)
    (digits : significand x = m) (place : exponent x = e) : value x = m * 2 ^ e := by
  rw [value, positive, digits, place]
  rfl

theorem Binary64.value_one : value 1 = 1 := by
  rw [value_of_parts (m := 4503599627370496) (e := -52) rfl rfl rfl]
  norm_num

theorem Binary64.isFinite_one : (1 : Float).isFinite = true := rfl

theorem Binary64.isFinite_zero : (0 : Float).isFinite = true := rfl

namespace Draws

/-- The fraction bits of a number between 1 and 2. -/
theorem exists_fields_fraction (w : UInt64) : ∃ f : BitVec 52,
    HasFields (Float.ofBits (w >>> 12 ||| 0x3ff0000000000000)) .positive 1023#11 f := by
  have small : w.toNat / 2 ^ 12 < 2 ^ 52 := by
    have limit := w.toNat_lt
    omega
  have bits : w >>> 12 ||| 0x3ff0000000000000 =
      UInt64.ofBitVec (fields .positive 1023#11 (BitVec.ofNat 52 (w.toNat / 2 ^ 12))) := by
    apply UInt64.toNat_inj.mp
    change _ = (fields .positive 1023#11 (BitVec.ofNat 52 (w.toNat / 2 ^ 12))).toNat
    have disjoint : 1023 <<< 52 + w.toNat / 2 ^ 12 = 1023 <<< 52 ||| w.toNat / 2 ^ 12 :=
      Nat.shiftLeft_add_eq_or_of_lt small 1023
    have shifted : (w >>> 12).toNat = w.toNat / 2 ^ 12 := by
      rw [UInt64.toNat_shiftRight, ← Nat.shiftRight_eq_div_pow]
      simp
    have top : (0x3ff0000000000000 : UInt64).toNat = 1023 <<< 52 := by simp
    rw [toNat_fields, BitVec.toNat_ofNat, UInt64.toNat_or, Nat.or_comm, shifted, top, ← disjoint]
    simp [Sign.toBitVec]
    omega
  rw [bits]
  exact ⟨_, HasFields.ofBits .positive 1023#11 _ (by decide)⟩

/-- The fraction of a word is that of its bits. -/
theorem isRounded_fraction {w : UInt64} {f : BitVec 52}
    (has : HasFields (Float.ofBits (w >>> 12 ||| 0x3ff0000000000000)) .positive 1023#11 f) :
    IsRounded (fraction w) (f.toNat / 2 ^ 52) := by
  have value_eq : value (Float.ofBits (w >>> 12 ||| 0x3ff0000000000000)) = 1 + f.toNat / 2 ^ 52 := by
    have exponent : (1023#11 : BitVec 11).toNat = 1023 := rfl
    rw [has.value_eq, has.significand_eq, has.exponent_eq, exponent]
    norm_num [Sign.apply]
    ring
  have rounds := isRounded_sub has.isFinite isFinite_one
  rwa [value_eq, value_one, add_sub_cancel_left] at rounds

/-- The fraction of a word is a finite number from 0 up to 1. -/
theorem fraction_bounds (w : UInt64) :
    (fraction w).isFinite = true ∧ 0 ≤ value (fraction w) ∧ value (fraction w) ≤ 1 := by
  obtain ⟨f, has⟩ := exists_fields_fraction w
  have limit : (f.toNat : ℚ) < 2 ^ 52 := by exact_mod_cast f.isLt
  rw [← value_zero, ← value_one]
  refine (isRounded_fraction has).within isFinite_zero isFinite_one ?_ ?_
  · rw [value_zero]
    positivity
  · rw [value_one, div_le_one (by positivity)]
    exact limit.le

theorem isFinite_of_usable {low high : Float} (isUsable : usable low high = true) :
    low < high ∧ (high - low).isFinite = true ∧ low.isFinite = true ∧ high.isFinite = true := by
  simp only [usable, Bool.and_eq_true, decide_eq_true_eq] at isUsable
  obtain ⟨finiteHigh, finiteLow⟩ := isFinite_of_isFinite_sub isUsable.2
  exact ⟨isUsable.1, isUsable.2, finiteLow, finiteHigh⟩

/-- The product of a fraction and the length of a range lies between zero and that length. -/
theorem scaled_bounds {low high : Float} (isUsable : usable low high = true) (w : UInt64) :
    (fraction w * (high - low)).isFinite = true ∧ 0 ≤ value (fraction w * (high - low)) := by
  obtain ⟨less, finite, finiteLow, finiteHigh⟩ := isFinite_of_usable isUsable
  obtain ⟨finiteFraction, nonneg, atMost⟩ := fraction_bounds w
  have length : 0 ≤ value (high - low) := by
    have ordered := (value_lt_iff finiteLow finiteHigh).mpr less
    have above : value 0 ≤ value high - value low := by
      rw [value_zero]
      linarith
    rw [← value_zero, value_le_iff isFinite_zero finite]
    exact (isRounded_of_isFinite isFinite_zero).rank_le (isRounded_sub finiteHigh finiteLow) above
  have bounds := (isRounded_mul finiteFraction finite).within isFinite_zero finite
    (by rw [value_zero]; exact mul_nonneg nonneg length) (mul_le_of_le_one_left length atMost)
  exact ⟨bounds.1, value_zero ▸ bounds.2.1⟩

/-- A number from a usable range is finite, and lies between its ends. -/
theorem firstBetween_bounds {low high x : Float} {words left : List UInt64}
    (isUsable : usable low high = true) (returned : firstBetween low high words = .ok (x, left)) :
    x.isFinite = true ∧ value low ≤ value x ∧ value x < value high := by
  induction words with
  | nil => cases returned
  | cons w rest ih =>
    simp only [firstBetween] at returned
    split_ifs at returned with below
    · cases returned
      obtain ⟨less, -, finiteLow, finiteHigh⟩ := isFinite_of_usable isUsable
      obtain ⟨finite, nonneg⟩ := scaled_bounds isUsable w
      have rounds := isRounded_add finite finiteLow
      have above := (isRounded_of_isFinite finiteLow).rank_le rounds (by linarith)
      have upper := (lt_iff_rank rounds.number (isNaN_of_isFinite finiteHigh)).mp below
      have inside := isFinite_of_between rounds.number finiteLow finiteHigh above upper.le
      exact ⟨inside, (value_le_iff finiteLow inside).mpr above,
        (value_lt_iff inside finiteHigh).mpr below⟩
    · exact ih returned

/-- The word zero ends every choice from a usable range, at its lower end. -/
theorem between_zero {low high : Float} (isUsable : usable low high = true) :
    ∃ x, x.isFinite = true ∧ value x = value low ∧
      ∀ rest, between low high (0 :: rest) = .ok (x, rest) := by
  obtain ⟨less, finite, finiteLow, finiteHigh⟩ := isFinite_of_usable isUsable
  have zero : fraction 0 = 0 := rfl
  have product := isRounded_mul isFinite_zero finite
  rw [value_zero, zero_mul] at product
  have finiteProduct := (product.within isFinite_zero isFinite_zero value_zero.le value_zero.ge).1
  have nothing : value (0 * (high - low)) = 0 := by
    rw [← value_zero]
    refine value_eq_of_rank_eq finiteProduct isFinite_zero ?_
    rw [product.rank_eq, rank_eq_rounded isFinite_zero, value_zero]
  have sum := isRounded_add finiteProduct finiteLow
  rw [nothing, zero_add] at sum
  have finiteSum := (sum.within finiteLow finiteLow le_rfl le_rfl).1
  have same : value (0 * (high - low) + low) = value low := by
    refine value_eq_of_rank_eq finiteSum finiteLow ?_
    rw [sum.rank_eq, rank_eq_rounded finiteLow]
  have below : 0 * (high - low) + low < high := by
    rw [← value_lt_iff finiteSum finiteHigh, same, value_lt_iff finiteLow finiteHigh]
    exact less
  refine ⟨_, finiteSum, same, fun rest => ?_⟩
  rw [between, if_pos isUsable]
  simp only [firstBetween, zero, if_pos below]

theorem isFinite_limit : (Float.ofBits 0x4340000000000000).isFinite = true := rfl

theorem value_limit : value (Float.ofBits 0x4340000000000000) = 2 ^ 53 := by
  rw [value_of_parts (m := 4503599627370496) (e := 1) rfl rfl rfl]
  norm_num

theorem isFinite_step : (Float.ofBits 0x3ca0000000000000).isFinite = true := rfl

theorem value_step : value (Float.ofBits 0x3ca0000000000000) = 1 / 2 ^ 53 := by
  rw [value_of_parts (m := 4503599627370496) (e := -105) rfl rfl rfl]
  norm_num

theorem isRounded_toFloat (w : UInt64) : IsRounded w.toFloat w.toNat := by
  have whole : IsRounded w.toFloat ((w.toNat : Int) * 2 ^ (0 : Int)) := isRounded_of_normalize rfl
  rwa [Int.cast_natCast, zpow_zero, mul_one] at whole

/-- A whole number of at most 53 bits, in steps of the smallest fraction. -/
theorem unit_bounds {x : Float} {words left : List UInt64} (returned : unit words = .ok (x, left)) :
    x.isFinite = true ∧ 0 ≤ value x := by
  cases words with
  | nil => cases returned
  | cons w rest =>
    cases returned
    have whole := isRounded_toFloat (w >>> 11)
    have bounded : ((w >>> 11).toNat : ℚ) ≤ 2 ^ 53 := by
      have short : (w >>> 11).toNat ≤ 2 ^ 53 := by
        rw [UInt64.toNat_shiftRight]
        have limit := w.toNat_lt
        change w.toNat >>> 11 ≤ 2 ^ 53
        rw [Nat.shiftRight_eq_div_pow]
        omega
      exact_mod_cast short
    obtain ⟨finite, nonneg, upper⟩ := whole.within isFinite_zero isFinite_limit
      (by rw [value_zero]; exact Nat.cast_nonneg _) (by rw [value_limit]; exact bounded)
    rw [value_zero] at nonneg
    rw [value_limit] at upper
    have product := (isRounded_mul finite isFinite_step).within isFinite_zero isFinite_one
      (by rw [value_zero, value_step]; positivity)
      (by rw [value_one, value_step]; linarith)
    exact ⟨product.1, value_zero ▸ product.2.1⟩

/-- The number that the word zero gives. -/
def least : Float := (0 : UInt64).toFloat * Float.ofBits 0x3ca0000000000000

theorem least_lt {x : Float} (positive : 0 < x) : least < x := by
  obtain ⟨-, number⟩ := isNaN_of_lt positive
  have plain : least.isNaN = false := rfl
  have zero : rank least = rank 0 := rfl
  rw [lt_iff_rank plain number, zero]
  exact (lt_iff_rank (isNaN_of_isFinite isFinite_zero) number).mp positive

section Secures

variable {α β : Type} {post : α → Prop}

/-- The choice never asks for an unusable range, and its value is as stated whenever it returns. -/
structure Secures (choice : Draws α) (post : α → Prop) : Prop where
  ensures : Ensures choice post
  usable : ∀ words, choice words ≠ .error .unusableRange

theorem secures_pure {a : α} (holds : post a) : Secures (pure a) post :=
  ⟨ensures_pure holds, fun _ => nofun⟩

theorem Secures.mono {choice : Draws α} {weak : α → Prop} (strong : Secures choice post)
    (weaken : ∀ a, post a → weak a) : Secures choice weak :=
  ⟨strong.ensures.mono weaken, strong.usable⟩

theorem Secures.bind {choice : Draws α} {next : α → Draws β} {goal : β → Prop}
    (first : Secures choice post) (second : ∀ a, post a → Secures (next a) goal) :
    Secures (choice >>= next) goal where
  ensures := first.ensures.bind fun a holds => (second a holds).ensures
  usable := by
    intro words halted
    change (choice words >>= fun result => next result.1 result.2) = _ at halted
    cases ran : choice words with
    | error halt =>
      rw [ran] at halted
      cases halted
      exact first.usable words ran
    | ok result =>
      rw [ran] at halted
      exact (second result.1 (first.ensures words result.1 result.2 ran)).usable result.2 halted

theorem Secures.map {choice : Draws α} {f : α → β} {goal : β → Prop}
    (first : Secures choice (fun a => goal (f a))) : Secures (f <$> choice) goal := by
  rw [map_eq_pure_bind]
  exact first.bind fun a holds => secures_pure holds

theorem Secures.of_map {choice : Draws α} {f : α → β} {goal : β → Prop}
    (secures : Secures (f <$> choice) goal) : Secures choice (fun a => goal (f a)) where
  ensures := by
    intro words a left returned
    refine secures.ensures words (f a) left ?_
    change (choice words >>= fun result => .ok (f result.1, result.2)) = _
    rw [returned]
    rfl
  usable := by
    intro words halted
    refine secures.usable words ?_
    change (choice words >>= fun result => .ok (f result.1, result.2)) = _
    rw [halted]
    rfl

/-- What follows a choice is secure after every value that the choice can have. -/
theorem Secures.after {choice : Draws α} {next : α → Draws β} {goal : β → Prop}
    (secures : Secures (choice >>= next) goal) {a : α} (first : List UInt64)
    (ran : ∀ rest, choice (first ++ rest) = .ok (a, rest)) : Secures (next a) goal := by
  have runs : ∀ rest, (choice >>= next) (first ++ rest) = next a rest := by
    intro rest
    change (choice (first ++ rest) >>= fun result => next result.1 result.2) = _
    rw [ran]
    rfl
  exact ⟨fun rest b left returned => secures.ensures _ b left ((runs rest).trans returned),
    fun rest halted => secures.usable _ ((runs rest).trans halted)⟩

theorem Secures.first {choice : Draws α} {next : α → Draws β} {goal : β → Prop}
    (secures : Secures (choice >>= next) goal) : Secures choice (fun _ => True) where
  ensures := ensures_any choice
  usable := by
    intro words halted
    refine secures.usable words ?_
    change (choice words >>= fun result => next result.1 result.2) = _
    rw [halted]
    rfl

theorem secures_unit : Secures unit (fun x => x.isFinite = true ∧ 0 ≤ value x) where
  ensures := fun _ _ _ => unit_bounds
  usable := fun words => by cases words <;> nofun

theorem ensures_index (range : Nat) : Ensures (index range) (· < range) := by
  intro words i left returned
  by_cases empty : range = 0
  · rw [index, if_pos empty] at returned
    cases returned
  · rw [index, if_neg empty] at returned
    induction words with
    | nil => cases returned
    | cons w rest ih =>
      simp only [firstIndex] at returned
      split_ifs at returned
      · cases returned
        have inWord : w.toNat < UInt64.size := w.toNat_lt_size
        exact Nat.div_lt_of_lt_mul (Nat.mul_lt_mul_of_pos_right inWord (Nat.pos_of_ne_zero empty))
      · exact ih returned

theorem secures_index {range : Nat} (positive : 0 < range) : Secures (index range) (· < range) where
  ensures := ensures_index range
  usable := by
    intro words
    rw [index, if_neg positive.ne']
    induction words with
    | nil => nofun
    | cons w rest ih =>
      simp only [firstIndex]
      split_ifs
      · nofun
      · exact ih

theorem secures_pick (first : α) (others : List α) : Secures (pick first others) (fun _ => True) :=
  (secures_index (Nat.succ_pos _)).bind fun _ _ => secures_pure trivial

theorem secures_between {low high : Float} (isUsable : Draws.usable low high = true) :
    Secures (between low high)
      (fun x => x.isFinite = true ∧ value low ≤ value x ∧ value x < value high) := by
  rw [between, if_pos isUsable]
  refine ⟨fun words x left returned => firstBetween_bounds isUsable returned, fun words => ?_⟩
  induction words with
  | nil => nofun
  | cons w rest ih =>
    simp only [firstBetween]
    split_ifs
    · nofun
    · exact ih

/-- A choice from a range that is not usable is not secure, whatever it would return. -/
theorem usable_of_secures {low high : Float} {post : Float → Prop}
    (secures : Secures (between low high) post) : Draws.usable low high = true := by
  by_contra unusable
  refine secures.usable [] ?_
  rw [between, if_neg unusable]

end Secures

end Draws

end FractalBreeder
