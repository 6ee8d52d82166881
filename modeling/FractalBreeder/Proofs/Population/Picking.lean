import Mathlib.Data.Finset.Basic
import Mathlib.Data.Finset.Range
import FractalBreeder.Document.Population

/-!
Picks are a set of slots. Whatever was done to them, they list, know and change the slots as the set
does. Only the question whether nothing is picked is about the whole word, with the bits beyond the
last slot that a saved word may have.
-/
namespace FractalBreeder.Picks

/-! ### Bits -/

/-- Whether a bit of the word is set, that of a slot or one beyond. -/
def bit (p : Picks) (i : Nat) : Bool := p.bits.toBitVec.getLsbD i

theorem eq_of_bit {p q : Picks} (same : ∀ i, p.bit i = q.bit i) : p = q := by
  obtain ⟨bits⟩ := p
  obtain ⟨bits'⟩ := q
  have equal : bits = bits' := UInt16.toBitVec_inj.mp (BitVec.eq_of_getLsbD_eq fun i _ => same i)
  rw [equal]

theorem toBitVec_mask {slot : Nat} (inside : slot < generationSize) :
    (mask slot).toBitVec = BitVec.twoPow 16 slot := by
  have all : ∀ slot < generationSize, (mask slot).toBitVec = BitVec.twoPow 16 slot := by decide
  exact all slot inside

theorem bit_none (i : Nat) : none.bit i = false := BitVec.getLsbD_zero

theorem contains_eq (p : Picks) (i : Nat) :
    p.contains i = (decide (i < generationSize) && p.bit i) := by
  unfold contains
  by_cases inside : i < generationSize
  · have narrow : i < 16 := Nat.lt_trans inside (by decide)
    have masked : p.bits &&& mask i = 0 ↔ p.bit i = false := by
      rw [← UInt16.toBitVec_inj, UInt16.toBitVec_and, toBitVec_mask inside, BitVec.and_twoPow]
      cases same : p.bits.toBitVec.getLsbD i with
      | false => simp [bit, same]
      | true =>
        have single : BitVec.twoPow 16 i ≠ 0 := by
          rw [← toBitVec_mask inside]
          have all : ∀ slot < generationSize, (mask slot).toBitVec ≠ 0 := by decide
          exact all i inside
        simpa [bit, same] using single
    cases set : p.bit i with
    | false => simp [masked.mpr set]
    | true => simp [inside, masked, set]
  · simp [inside]

theorem set_of_le {p : Picks} {i : Nat} (beyond : generationSize ≤ i) (picked : Bool) :
    p.set i picked = p := if_pos beyond

theorem bit_set {p : Picks} {i : Nat} (inside : i < generationSize) (picked : Bool) (j : Nat) :
    (p.set i picked).bit j = if j = i then picked else p.bit j := by
  rw [set, if_neg (Nat.not_le_of_lt inside)]
  have narrow : i < 16 := Nat.lt_trans inside (by decide)
  cases picked with
  | true =>
    simp only [bit, if_true, UInt16.toBitVec_or, toBitVec_mask inside, BitVec.getLsbD_or,
      BitVec.getLsbD_twoPow]
    by_cases same : j = i
    · simp [same, narrow]
    · simp [same, Ne.symm same]
  | false =>
    simp only [bit, Bool.false_eq_true, if_false, UInt16.toBitVec_and, UInt16.toBitVec_not,
      toBitVec_mask inside, BitVec.getLsbD_and, BitVec.getLsbD_not, BitVec.getLsbD_twoPow]
    by_cases same : j = i
    · simp [same, narrow]
    · have wide : p.bits.toBitVec.getLsbD j = true → j < 16 := BitVec.lt_of_getLsbD
      simpa [same, Ne.symm same] using wide

/-- A bit beyond the last slot is set. -/
def Stray (p : Picks) : Prop := ∃ i, generationSize ≤ i ∧ p.bit i = true

theorem stray_set (p : Picks) (i : Nat) (picked : Bool) : (p.set i picked).Stray ↔ p.Stray := by
  rcases Nat.lt_or_ge i generationSize with inside | beyond
  · refine exists_congr fun j => and_congr_right fun outside => ?_
    rw [bit_set inside, if_neg (Nat.ne_of_gt (Nat.lt_of_lt_of_le inside outside))]
  · rw [set_of_le beyond]

theorem not_stray_none : ¬ none.Stray := by
  rintro ⟨i, -, set⟩
  rw [bit_none] at set
  cases set

theorem isEmpty_iff (p : Picks) : p.isEmpty = true ↔ ∀ i, p.bit i = false := by
  constructor
  · intro empty i
    have zero : p = none := congrArg mk (beq_iff_eq.mp empty)
    rw [zero, bit_none]
  · intro unset
    have zero : p = none := eq_of_bit fun i => by rw [unset, bit_none]
    rw [zero]
    rfl

/-! ### The slots -/

theorem mem_slots {p : Picks} {i : Nat} : i ∈ p.slots ↔ p.contains i = true := by
  rw [slots, List.mem_filter, List.mem_range, contains_eq, Bool.and_eq_true, decide_eq_true_eq]
  exact and_iff_right_of_imp fun both => both.1

theorem pairwise_slots (p : Picks) : p.slots.Pairwise (· < ·) :=
  List.pairwise_lt_range.filter _

theorem contains_set (p : Picks) (i : Nat) (picked : Bool) (j : Nat) :
    (p.set i picked).contains j =
      if j = i ∧ i < generationSize then picked else p.contains j := by
  by_cases inside : i < generationSize
  · by_cases same : j = i
    · simp [contains_eq, bit_set inside, same, inside]
    · simp [contains_eq, bit_set inside, same]
  · simp [set_of_le (Nat.le_of_not_lt inside), inside]

theorem slots_eq_nil_iff {p : Picks} : p.slots = [] ↔ ∀ i < generationSize, p.bit i = false := by
  simp only [slots, List.filter_eq_nil_iff, List.mem_range, contains_eq]
  exact forall₂_congr fun i inside => by simp [inside]

/-- Nothing is picked where no slot is and the word has no other bits. -/
theorem isEmpty_iff_slots (p : Picks) : p.isEmpty = true ↔ p.slots = [] ∧ ¬ p.Stray := by
  rw [isEmpty_iff, slots_eq_nil_iff]
  constructor
  · intro unset
    refine ⟨fun i _ => unset i, ?_⟩
    rintro ⟨i, -, set⟩
    rw [unset i] at set
    cases set
  · rintro ⟨unset, kempt⟩ i
    rcases Nat.lt_or_ge i generationSize with inside | beyond
    · exact unset i inside
    · exact Bool.eq_false_iff.mpr fun set => kempt ⟨i, beyond, set⟩

/-! ### Picks that are made at once -/

theorem contains_foldl_set {slots : List Nat} (p : Picks) (i : Nat) :
    (slots.foldl (fun p slot => p.set slot true) p).contains i = true ↔
      p.contains i = true ∨ i ∈ slots ∧ i < generationSize := by
  induction slots generalizing p with
  | nil => simp
  | cons slot slots ih =>
    rw [List.foldl_cons, ih, contains_set, List.mem_cons]
    by_cases here : i = slot ∧ slot < generationSize
    · simp [here]
    · rw [if_neg here]
      have other : i = slot → ¬ i < generationSize := fun same inside =>
        here ⟨same, same ▸ inside⟩
      tauto

theorem contains_ofSlots {slots : List Nat} {i : Nat} :
    (ofSlots slots).contains i = true ↔ i ∈ slots ∧ i < generationSize := by
  rw [ofSlots, contains_foldl_set, contains_eq, bit_none, Bool.and_false]
  simp

theorem not_stray_ofSlots (slots : List Nat) : ¬ (ofSlots slots).Stray := by
  suffices kept : ∀ p : Picks, (slots.foldl (fun p slot => p.set slot true) p).Stray ↔ p.Stray from
    fun stray => not_stray_none ((kept none).mp stray)
  induction slots with
  | nil => exact fun p => Iff.rfl
  | cons slot slots ih => exact fun p => (ih _).trans (stray_set p slot true)

theorem mem_flagged {flags : List Bool} {i : Nat} :
    i ∈ (flags.zipIdx.filter (·.1)).map (·.2) ↔ flags[i]? = some true := by
  simp [List.mem_zipIdx_iff_getElem?]

/-- Picks without stray bits are known by their slots. -/
theorem eq_of_contains {p q : Picks} (kempt : ¬ p.Stray) (kempt' : ¬ q.Stray)
    (same : ∀ i, p.contains i = q.contains i) : p = q := by
  refine eq_of_bit fun i => ?_
  rcases Nat.lt_or_ge i generationSize with inside | beyond
  · simpa [contains_eq, inside] using same i
  · have unset : p.bit i = false := Bool.eq_false_iff.mpr fun set => kempt ⟨i, beyond, set⟩
    have unset' : q.bit i = false := Bool.eq_false_iff.mpr fun set => kempt' ⟨i, beyond, set⟩
    rw [unset, unset']

/-! ### A set of slots -/

/-- Where picks come from. -/
inductive Origin where
  | nothing
  | listed (slots : List Nat)
  | flagged (flags : List Bool)
  /-- A word that was saved, whatever its bits. -/
  | saved (word : UInt16)

namespace Origin

def picks : Origin → Picks
  | nothing => none
  | listed slots => ofSlots slots
  | flagged flags => ofFlags flags
  | saved word => (ofDocument? (.int word.toNat)).getD none

/-- The slots that are meant. -/
def members : Origin → Finset Nat
  | nothing => ∅
  | listed slots => slots.toFinset.filter (· < generationSize)
  | flagged flags => (Finset.range generationSize).filter fun i => flags[i]? = some true
  | saved word => (Finset.range generationSize).filter fun i => word.toNat.testBit i

/-- Only a saved word may have bits beyond the last slot. -/
def IsStray : Origin → Prop
  | saved word => (mk word).Stray
  | _ => False

theorem picks_saved (word : UInt16) : (saved word).picks = ⟨word⟩ := by
  have below : word.toNat < UInt16.size := word.toNat_lt
  simp [picks, ofDocument?, Document.natBelow?, below]

theorem stray_picks (origin : Origin) : origin.picks.Stray ↔ origin.IsStray := by
  cases origin with
  | nothing => exact iff_of_false not_stray_none id
  | listed slots => exact iff_of_false (not_stray_ofSlots slots) id
  | flagged flags => exact iff_of_false (not_stray_ofSlots _) id
  | saved word => rw [picks_saved, IsStray]

end Origin

/-- What is done to picks. -/
inductive Change where
  | set (slot : Nat) (picked : Bool)
  | toggle (slot : Nat)
  | clear
  deriving DecidableEq

def change (p : Picks) : Change → Picks
  | .set slot picked => p.set slot picked
  | .toggle slot => p.toggle slot
  | .clear => none

/-- The same, done to a set of slots. -/
def Change.on (s : Finset Nat) : Change → Finset Nat
  | .set slot true => if slot < generationSize then insert slot s else s
  | .set slot false => s.erase slot
  | .toggle slot =>
    if slot ∈ s then s.erase slot else if slot < generationSize then insert slot s else s
  | .clear => ∅

/-- The picks know the members of the set, and no others. -/
def Depicts (p : Picks) (s : Finset Nat) : Prop := ∀ i, p.contains i = true ↔ i ∈ s

theorem Origin.depicts (origin : Origin) : Depicts origin.picks origin.members := by
  intro i
  cases origin with
  | nothing => simp [picks, members, contains_eq, bit_none]
  | listed slots => simp [picks, members, contains_ofSlots]
  | flagged flags =>
    rw [picks, ofFlags, contains_ofSlots, mem_flagged, members, Finset.mem_filter, Finset.mem_range]
    exact and_comm
  | saved word =>
    rw [picks_saved, contains_eq, members, Finset.mem_filter, Finset.mem_range]
    simp [bit, BitVec.getLsbD]

theorem Depicts.set {p : Picks} {s : Finset Nat} (depicts : Depicts p s) (slot : Nat)
    (picked : Bool) : Depicts (p.set slot picked) (Change.on s (.set slot picked)) := by
  intro i
  rw [contains_set]
  by_cases inside : slot < generationSize
  · cases picked with
    | true => by_cases same : i = slot <;> simp [Change.on, inside, same, depicts i]
    | false => by_cases same : i = slot <;> simp [Change.on, inside, same, depicts i]
  · cases picked with
    | true => simp [Change.on, inside, depicts i]
    | false =>
      have outside : slot ∉ s := by
        rw [← depicts slot, contains_eq]
        simp [inside]
      simp [Change.on, inside, depicts i, Finset.erase_eq_of_notMem outside]

theorem Depicts.change {p : Picks} {s : Finset Nat} (depicts : Depicts p s) (c : Change) :
    Depicts (p.change c) (c.on s) := by
  cases c with
  | set slot picked => exact depicts.set slot picked
  | toggle slot =>
    have flipped := depicts.set slot (!p.contains slot)
    cases here : p.contains slot with
    | false =>
      have outside : slot ∉ s := by simp [← depicts slot, here]
      simpa [Picks.change, toggle, Change.on, here, outside] using flipped
    | true =>
      have inside : slot ∈ s := by simp [← depicts slot, here]
      simpa [Picks.change, toggle, Change.on, here, inside] using flipped
  | clear => simp [Depicts, Picks.change, Change.on, contains_eq, bit_none]

/-- Bits beyond the last slot stay until everything is cleared. -/
theorem stray_change (p : Picks) (c : Change) : (p.change c).Stray ↔ p.Stray ∧ c ≠ .clear := by
  cases c with
  | set slot picked => simp [change, stray_set]
  | toggle slot => simp [change, toggle, stray_set]
  | clear => simp [change, not_stray_none]

/-- Picks that behave as a set of slots. -/
structure Behaves (p : Picks) (s : Finset Nat) : Prop where
  below : ∀ i ∈ s, i < generationSize
  contains : ∀ i, p.contains i = true ↔ i ∈ s
  slots : ∀ i, i ∈ p.slots ↔ i ∈ s
  ascending : p.slots.Pairwise (· < ·)
  ignored : ∀ i, generationSize ≤ i → (∀ picked, p.set i picked = p) ∧ p.toggle i = p

theorem Depicts.behaves {p : Picks} {s : Finset Nat} (depicts : Depicts p s) : Behaves p s where
  below i member := by
    rw [← depicts i, contains_eq, Bool.and_eq_true] at member
    exact of_decide_eq_true member.1
  contains := depicts
  slots i := mem_slots.trans (depicts i)
  ascending := pairwise_slots p
  ignored i beyond := ⟨set_of_le beyond, set_of_le beyond _⟩

theorem depicts_foldl {p : Picks} {s : Finset Nat} (depicts : Depicts p s) (changes : List Change) :
    Depicts (changes.foldl change p) (changes.foldl Change.on s) := by
  induction changes generalizing p s with
  | nil => exact depicts
  | cons c changes ih => exact ih (depicts.change c)

theorem stray_foldl (p : Picks) (changes : List Change) :
    (changes.foldl change p).Stray ↔ p.Stray ∧ .clear ∉ changes := by
  induction changes generalizing p with
  | nil => simp
  | cons c changes ih =>
    rw [List.foldl_cons, ih, stray_change, List.mem_cons]
    tauto

/-- Picks behave as a set of slots, wherever they come from and whatever was done to them. Slots
that are given at once may be given in any order and more than once. That nothing is picked is told
exactly where no slot is, unless the word came with bits beyond the last slot and was never
cleared. -/
theorem changed_behaves (origin : Origin) (changes : List Change) :
    Behaves (changes.foldl change origin.picks) (changes.foldl Change.on origin.members) ∧
    ((changes.foldl change origin.picks).isEmpty = true ↔
      (changes.foldl change origin.picks).slots = [] ∧ (origin.IsStray → .clear ∈ changes)) ∧
    ∀ slots slots' : List Nat, (∀ i < generationSize, i ∈ slots ↔ i ∈ slots') →
      ofSlots slots = ofSlots slots' := by
  refine ⟨(depicts_foldl origin.depicts changes).behaves, ?_, fun slots slots' same => ?_⟩
  · rw [isEmpty_iff_slots, stray_foldl, origin.stray_picks, not_and_not_right]
  · refine eq_of_contains (not_stray_ofSlots slots) (not_stray_ofSlots slots') fun i => ?_
    rw [Bool.eq_iff_iff, contains_ofSlots, contains_ofSlots]
    exact and_congr_left (same i)

theorem changed_behaves_strayed :
    Behaves ([.toggle 4, .toggle 12].foldl change (Origin.saved 512).picks) {4} ∧
      ofSlots [4, 0, 12, 4] = ofSlots [0, 4] := by
  obtain ⟨behaves, -, same⟩ := changed_behaves (.saved 512) [.toggle 4, .toggle 12]
  have members : [.toggle 4, .toggle 12].foldl Change.on (Origin.saved 512).members = {4} := by
    decide
  rw [members] at behaves
  exact ⟨behaves, same _ _ (by decide)⟩

/-- A saved word with the bit behind the last slot lists no slot, and still counts as picks. -/
theorem not_always_isEmpty : ¬ ∀ (origin : Origin) (changes : List Change),
    (changes.foldl change origin.picks).isEmpty = true ↔
      (changes.foldl change origin.picks).slots = [] := by
  intro always
  have empty := (always (.saved 512) []).mpr (by decide)
  exact absurd empty (by decide)

end FractalBreeder.Picks
