import FractalBreeder.Heredity.Fractal
import FractalBreeder.Proofs.Expr.Addressing
import FractalBreeder.Proofs.Chance.Ranges

/-!
When the genetic operators are safe: no choice asks for an unusable range, and finite constants
give finite constants. Valid settings alone do not ensure it. They do exactly when the range of the
constants has a finite length and, if constants may move, the largest number may move by the whole
mutation range and the fold is a number.
-/
namespace FractalBreeder

open Binary64
open Draws (Secures secures_pure)

namespace Expr

/-- All constants are finite. -/
def IsFinite (e : Expr) : Prop := ∀ c ∈ e.constants, c.value.isFinite = true

theorem isFinite_var (v : Variable) : (var v).IsFinite := nofun

theorem isFinite_const {c : Number} : (const c).IsFinite ↔ c.value.isFinite = true := by
  simp [IsFinite, constants]

theorem isFinite_unary {op : Unary} {a : Expr} : (unary op a).IsFinite ↔ a.IsFinite := Iff.rfl

theorem isFinite_binary {op : Binary} {a b : Expr} :
    (binary op a b).IsFinite ↔ a.IsFinite ∧ b.IsFinite := by
  simp only [IsFinite, constants, List.mem_append]
  exact ⟨fun all => ⟨fun c found => all c (.inl found), fun c found => all c (.inr found)⟩,
    fun both c found => found.elim (both.1 c) (both.2 c)⟩

theorem isFinite_ternary {op : Ternary} {a b c : Expr} :
    (ternary op a b c).IsFinite ↔ a.IsFinite ∧ b.IsFinite ∧ c.IsFinite := by
  simp only [IsFinite, constants, List.mem_append]
  exact ⟨fun all => ⟨fun d found => all d (.inl (.inl found)),
      fun d found => all d (.inl (.inr found)), fun d found => all d (.inr found)⟩,
    fun each d found => found.elim (fun left => left.elim (each.1 d) (each.2.1 d)) (each.2.2 d)⟩

theorem isFinite_iff_labels {e : Expr} :
    e.IsFinite ↔ ∀ c : Number, .const c ∈ e.labels → c.value.isFinite = true := by
  simp only [IsFinite, mem_constants_iff]

theorem IsFinite.put {e r : Expr} {i : Nat} {focus : Focus} (finite : e.IsFinite)
    (finite' : r.IsFinite) (points : Points e i focus) : (focus.put r).IsFinite := by
  rw [isFinite_iff_labels] at finite finite' ⊢
  intro c member
  exact (points.mem_labels_put member).elim (finite c) (finite' c)

theorem IsFinite.node {e : Expr} {i : Nat} {focus : Focus} (finite : e.IsFinite)
    (points : Points e i focus) : focus.node.IsFinite := by
  rw [isFinite_iff_labels] at finite ⊢
  exact fun c member => finite c (points.mem_labels_node member)

theorem IsFinite.replace_getD {e r : Expr} (finite : e.IsFinite) (finite' : r.IsFinite) (i : Nat) :
    ((e.replace? i r).getD e).IsFinite := by
  rw [replace?]
  cases found : e.focus? i with
  | none => exact finite
  | some focus => exact finite.put finite' (points_of_focus? found)

theorem IsFinite.trade {e hand : Expr} (finite : e.IsFinite) (finite' : hand.IsFinite) (i : Nat) :
    (e.trade i hand).1.IsFinite ∧ (e.trade i hand).2.IsFinite := by
  rw [Expr.trade]
  cases found : e.focus? i with
  | none => exact ⟨finite, finite'⟩
  | some focus =>
    have points := points_of_focus? found
    exact ⟨finite.put finite' points, finite.node points⟩

theorem IsFinite.exchange {a b : Expr} (finite : a.IsFinite) (finite' : b.IsFinite) (p q : Nat) :
    (a.exchange b p q).1.IsFinite ∧ (a.exchange b p q).2.IsFinite := by
  have blank : (const (.float 0)).IsFinite := isFinite_const.mpr isFinite_zero
  have lifted := finite'.trade blank q
  have dropped := finite.trade lifted.2 p
  exact ⟨dropped.1, (lifted.1.trade dropped.2 q).1⟩

theorem secures_traverseConstants {f : Number → Draws Number}
    (each : ∀ c, c.value.isFinite = true → Secures (f c) (fun c => c.value.isFinite = true))
    {e : Expr} (finite : e.IsFinite) : Secures (e.traverseConstants f) IsFinite := by
  induction e with
  | const c =>
    rw [traverseConstants_const]
    exact ((each c (isFinite_const.mp finite)).mono fun _ => isFinite_const.mpr).map
  | var v =>
    rw [traverseConstants_var]
    exact secures_pure finite
  | unary op a ih =>
    rw [traverseConstants_unary]
    exact Secures.map (f := unary op) (ih (isFinite_unary.mp finite))
  | binary op a b iha ihb =>
    obtain ⟨left, right⟩ := isFinite_binary.mp finite
    rw [traverseConstants_binary]
    refine (iha left).bind fun a' finiteA => ?_
    exact (ihb right).bind fun b' finiteB => secures_pure (isFinite_binary.mpr ⟨finiteA, finiteB⟩)
  | ternary op a b c iha ihb ihc =>
    obtain ⟨left, middle, right⟩ := isFinite_ternary.mp finite
    rw [traverseConstants_ternary]
    refine (iha left).bind fun a' finiteA => ?_
    refine (ihb middle).bind fun b' finiteB => ?_
    exact (ihc right).bind fun c' finiteC =>
      secures_pure (isFinite_ternary.mpr ⟨finiteA, finiteB, finiteC⟩)

end Expr

namespace Genome

def IsFinite (genome : Genome) : Prop := ∀ axis f, genome.get? axis = some f → f.root.IsFinite

theorem secures_traverse {f : Axis → Formula → Draws Formula} {genome : Genome}
    (each : ∀ axis formula, genome.get? axis = some formula →
      Secures (f axis formula) (·.root.IsFinite)) :
    Secures (genome.traverse f) IsFinite := by
  have onAxis : ∀ axis, Secures (traverseAxis (f axis) (genome.get? axis))
      (fun result => ∀ formula, result = some formula → formula.root.IsFinite) := by
    intro axis
    cases present : genome.get? axis with
    | none => exact secures_pure nofun
    | some formula =>
      refine Secures.map ((each axis formula present).mono fun result finite other same => ?_)
      exact Option.some.inj same ▸ finite
  unfold traverse
  refine (onAxis .x).bind fun x finiteX => ?_
  refine (onAxis .y).bind fun y finiteY => ?_
  refine (onAxis .z).bind fun z finiteZ => ?_
  refine (onAxis .r).bind fun r finiteR => ?_
  refine (onAxis .g).bind fun g finiteG => ?_
  refine (onAxis .b).bind fun b finiteB => ?_
  refine secures_pure fun axis => ?_
  cases axis with
  | x => exact finiteX
  | y => exact finiteY
  | z => exact finiteZ
  | r => exact finiteR
  | g => exact finiteG
  | b => exact finiteB

end Genome

namespace Growth

variable {settings : GeneticSettings}

theorem secures_constant
    (isUsable : Draws.usable settings.constantMin settings.constantMax = true) :
    Secures (constant settings) (·.isFinite = true) :=
  (Draws.secures_between isUsable).mono fun _ inside => inside.1

section Usable

variable (isUsable : Draws.usable settings.constantMin settings.constantMax = true)
include isUsable

theorem secures_leaf : Secures (leaf settings) Expr.IsFinite := by
  refine (Draws.secures_index (by decide)).bind fun i _ => ?_
  cases Variable.all[i]? with
  | some v => exact secures_pure (Expr.isFinite_var v)
  | none =>
    exact (secures_constant isUsable).bind fun c finite =>
      secures_pure (Expr.isFinite_const.mpr finite)

theorem secures_tree (levels : Nat) : Secures (tree settings levels) Expr.IsFinite := by
  induction levels with
  | zero => exact secures_leaf isUsable
  | succ levels ih =>
    refine Draws.secures_unit.bind fun chance _ => ?_
    split_ifs
    · exact secures_leaf isUsable
    · refine (Draws.secures_pick _ _).bind fun operator _ => ?_
      cases operator with
      | unary op => exact ih.bind fun a finite => secures_pure finite
      | binary op =>
        refine ih.bind fun a finiteA => ?_
        exact ih.bind fun b finiteB => secures_pure (Expr.isFinite_binary.mpr ⟨finiteA, finiteB⟩)
      | ternary op =>
        refine ih.bind fun a finiteA => ?_
        refine ih.bind fun b finiteB => ?_
        exact ih.bind fun c finiteC =>
          secures_pure (Expr.isFinite_ternary.mpr ⟨finiteA, finiteB, finiteC⟩)

theorem secures_node : Secures (node settings) Expr.IsFinite := secures_tree isUsable _

theorem secures_attractor : Secures (attractor settings) (·.root.IsFinite) := by
  refine (secures_constant isUsable).bind fun scale finite => ?_
  refine (secures_constant isUsable).bind fun weight finite' => secures_pure ?_
  simp [Formula.ofExpr, clifford, Expr.IsFinite, Expr.constants, Number.value, finite, finite']

theorem secures_plane : Secures (plane settings) (·.root.IsFinite) := by
  refine (secures_constant isUsable).bind fun a finite => ?_
  refine (secures_constant isUsable).bind fun b finite' => secures_pure ?_
  simp [Formula.ofExpr, Expr.IsFinite, Expr.constants, Number.value, finite, finite']

end Usable

end Growth

namespace Formula

theorem secures_cross {a b : Formula} (finite : a.root.IsFinite) (finite' : b.root.IsFinite) :
    Secures (a.cross b) (fun pair => pair.1.root.IsFinite ∧ pair.2.root.IsFinite) := by
  unfold cross
  split_ifs with small
  · exact secures_pure ⟨finite, finite'⟩
  · simp only [Bool.or_eq_true, decide_eq_true_eq] at small
    refine (Draws.secures_index (by omega)).bind fun p _ => ?_
    refine (Draws.secures_index (by omega)).bind fun q _ => secures_pure ?_
    exact finite.exchange finite' (p + 1) (q + 1)

end Formula

namespace GeneticSettings

/-- The largest finite number. -/
def largest : Float := Float.ofBits 0x7fefffffffffffff

/-- What makes settings safe, besides being valid: constants are drawn from a range of finite
length, and if they may move, they move to a number that can be folded. -/
structure Bounded (settings : GeneticSettings) : Prop where
  constants : (settings.constantMax - settings.constantMin).isFinite = true
  shifts : 0 < settings.mutateChance → (largest + settings.mutateRange).isFinite = true
  folds : 0 < settings.mutateChance → settings.mutateFold.value.isNaN = false

/-- What validation rules out. -/
structure Checked (settings : GeneticSettings) : Prop where
  chance : isChance settings.mutateChance = true
  constants : ¬ settings.constantMax ≤ settings.constantMin
  range : ¬ settings.mutateRange ≤ 0
  fold : ¬ settings.mutateFold.value ≤ 0

theorem checked_of_fault? {settings : GeneticSettings} (valid : settings.fault? = none) :
    settings.Checked := by
  unfold fault? at valid
  split_ifs at valid with operator chance constants range fold depth
  exact ⟨by simpa using chance, constants, range, fold⟩

/-- No finite number is larger. -/
theorem value_le_largest {x : Float} (finite : x.isFinite = true) :
    value x ≤ value largest := by
  have plain : largest.isFinite = true := rfl
  have top : rank largest = 0x7fefffffffffffff := rfl
  have bound := abs_lt.mp ((isFinite_iff_rank (isNaN_of_isFinite finite)).mp finite)
  rw [value_le_iff finite plain, top]
  omega

theorem lt_of_not_le {x y : Float} (finite : x.isNaN = false) (finite' : y.isNaN = false)
    (above : ¬ y ≤ x) : x < y := by
  rw [le_iff_rank finite' finite] at above
  rw [lt_iff_rank finite finite']
  omega

/-- What is above a number that is not negative is positive. -/
theorem pos_of_lt {x y : Float} (finite : x.isFinite = true) (nonneg : 0 ≤ value x) (less : x < y) :
    0 < y := by
  obtain ⟨-, number⟩ := isNaN_of_lt less
  rw [lt_iff_rank (isNaN_of_isFinite finite) number] at less
  rw [← value_zero, value_le_iff isFinite_zero finite] at nonneg
  exact (lt_iff_rank (isNaN_of_isFinite isFinite_zero) number).mpr (nonneg.trans_lt less)

variable {settings : GeneticSettings}

namespace Checked

theorem usable_constants (checked : settings.Checked)
    (finite : (settings.constantMax - settings.constantMin).isFinite = true) :
    Draws.usable settings.constantMin settings.constantMax = true := by
  obtain ⟨finiteMax, finiteMin⟩ := isFinite_of_isFinite_sub finite
  have less := lt_of_not_le (isNaN_of_isFinite finiteMin) (isNaN_of_isFinite finiteMax)
    checked.constants
  simp [Draws.usable, less, finite]

theorem range_pos (checked : settings.Checked) (finite : settings.mutateRange.isFinite = true) :
    0 < value settings.mutateRange := by
  have less := lt_of_not_le (isNaN_of_isFinite isFinite_zero) (isNaN_of_isFinite finite)
    checked.range
  rwa [← value_lt_iff isFinite_zero finite, value_zero] at less

theorem usable_shifts (checked : settings.Checked)
    (finite : (largest + settings.mutateRange).isFinite = true) :
    Draws.usable (-settings.mutateRange) settings.mutateRange = true := by
  obtain ⟨finiteTop, finiteRange⟩ := isFinite_of_isFinite_add finite
  have positive := checked.range_pos finiteRange
  have finiteLow := isFinite_neg finiteRange
  have less : -settings.mutateRange < settings.mutateRange := by
    rw [← value_lt_iff finiteLow finiteRange, value_neg finiteRange]
    linarith
  have length := isRounded_sub finiteRange finiteLow
  have sum := isRounded_add finiteTop finiteRange
  have top := value_le_largest finiteRange
  rw [value_neg finiteRange, sub_neg_eq_add] at length
  have finiteLength := isFinite_of_between length.number isFinite_zero finite
    ((isRounded_of_isFinite isFinite_zero).rank_le length (by rw [value_zero]; linarith))
    (length.rank_le sum (by linarith))
  simp [Draws.usable, less, finiteLength]

/-- The largest number may move by the whole range, and so every number may, in both directions. -/
theorem isFinite_moved {x delta : Float}
    (finite : (largest + settings.mutateRange).isFinite = true) (finiteX : x.isFinite = true)
    (finiteDelta : delta.isFinite = true) (low : -value settings.mutateRange ≤ value delta)
    (high : value delta ≤ value settings.mutateRange) : (x + delta).isFinite = true := by
  obtain ⟨finiteTop, finiteRange⟩ := isFinite_of_isFinite_add finite
  have sum := isRounded_add finiteTop finiteRange
  have moved := isRounded_add finiteX finiteDelta
  have top := value_le_largest finiteX
  have bottom := value_le_largest (isFinite_neg finiteX)
  rw [value_neg finiteX] at bottom
  have upper : rounded (value x + value delta) ≤
      rounded (value largest + value settings.mutateRange) := rounded_mono (by linarith)
  have lower : rounded (-(value largest + value settings.mutateRange)) ≤
      rounded (value x + value delta) := rounded_mono (by linarith)
  have bound := abs_lt.mp (sum.isFinite_iff.mp finite)
  rw [rounded_neg] at lower
  rw [moved.isFinite_iff, abs_lt]
  omega

theorem fold_pos (checked : settings.Checked) (number : settings.mutateFold.value.isNaN = false) :
    0 < settings.mutateFold.value :=
  lt_of_not_le (isNaN_of_isFinite isFinite_zero) number checked.fold

end Checked

end GeneticSettings

namespace Number

theorem apply_of_isFinite (op : Float → Float → Float) (a b : Number)
    (finite : (op a.value b.value).isFinite = true) : apply op a b = float (op a.value b.value) := by
  have number := isNaN_of_isFinite finite
  simp only [apply, number, Bool.not_false, ↓reduceIte]

theorem isFinite_folded {c fold : Number} {delta : Float} (moved : (c.value + delta).isFinite = true)
    (folded : (Binary64.remainder (c.value + delta) fold.value).isFinite = true) :
    ((c.add delta).remainder fold).value.isFinite = true := by
  have sum : c.add delta = float (c.value + delta) := apply_of_isFinite _ c (float delta) moved
  rw [sum, remainder, apply_of_isFinite _ (float (c.value + delta)) fold folded]
  exact folded

theorem isFinite_of_apply (op : Float → Float → Float) (a b : Number)
    (finite : (apply op a b).value.isFinite = true) : (op a.value b.value).isFinite = true := by
  cases number : (op a.value b.value).isNaN with
  | false =>
    simp only [apply, number, Bool.not_false, ↓reduceIte] at finite
    exact finite
  | true =>
    -- then the result is an operand that is no number, or a new one
    have nowhere : Binary64.nan.isFinite = false := rfl
    simp only [apply, number, Bool.not_true, Bool.false_eq_true, ↓reduceIte] at finite
    split_ifs at finite with left right
    · rw [isNaN_of_isFinite finite] at left
      cases left
    · rw [isNaN_of_isFinite finite] at right
      cases right
    · exact absurd finite (Bool.eq_false_iff.mp nowhere)

end Number

section Operators

variable {settings : GeneticSettings} (checked : settings.Checked) (bounded : settings.Bounded)
include checked bounded

namespace Formula

theorem secures_mutateConstant {c : Number} (finite : c.value.isFinite = true) :
    Secures (mutateConstant settings c) (fun c => c.value.isFinite = true) := by
  refine Draws.secures_unit.bind fun chance ⟨finiteChance, nonneg⟩ => ?_
  split_ifs with moves
  · have may : 0 < settings.mutateChance := GeneticSettings.pos_of_lt finiteChance nonneg moves
    have shifts := bounded.shifts may
    have finiteRange := (isFinite_of_isFinite_add shifts).2
    refine (Draws.secures_between (checked.usable_shifts shifts)).bind fun delta inside => ?_
    obtain ⟨finiteDelta, low, high⟩ := inside
    rw [value_neg finiteRange] at low
    have moved := GeneticSettings.Checked.isFinite_moved shifts finite finiteDelta low high.le
    have folded := isFinite_remainder moved
      (GeneticSettings.Checked.fold_pos checked (bounded.folds may))
    exact secures_pure (Number.isFinite_folded moved folded)
  · exact secures_pure finite

theorem secures_mutate {f : Formula} (finite : f.root.IsFinite) :
    Secures (f.mutate settings) (·.root.IsFinite) :=
  Secures.map (f := ofExpr)
    (Expr.secures_traverseConstants (fun _ => secures_mutateConstant checked bounded) finite)

theorem secures_introduce {f : Formula} (finite : f.root.IsFinite) :
    Secures (f.introduce settings) (·.root.IsFinite) := by
  refine (Draws.secures_index f.root.leaves_pos).bind fun i _ => ?_
  refine (Growth.secures_node (checked.usable_constants bounded.constants)).bind fun grown new => ?_
  exact secures_pure (finite.replace_getD new _)

end Formula

namespace Genome

theorem secures_random : Secures (random settings) IsFinite := by
  have isUsable := checked.usable_constants bounded.constants
  refine (Growth.secures_attractor isUsable).bind fun x finiteX => ?_
  refine (Growth.secures_attractor isUsable).bind fun y finiteY => ?_
  refine (Growth.secures_plane isUsable).bind fun z finiteZ => secures_pure ?_
  intro axis f present
  cases axis <;> cases present <;> assumption

theorem secures_mutate {genome : Genome} (finite : genome.IsFinite) :
    Secures (genome.mutate settings) IsFinite :=
  secures_traverse fun axis f present => Formula.secures_mutate checked bounded (finite axis f present)

theorem secures_introduce {genome : Genome} (finite : genome.IsFinite) :
    Secures (genome.introduce settings) IsFinite :=
  secures_traverse fun axis f present =>
    Formula.secures_introduce checked bounded (finite axis f present)

omit checked bounded in
theorem secures_cross {genome other : Genome} (finite : genome.IsFinite)
    (finite' : other.IsFinite) : Secures (genome.cross other) IsFinite := by
  refine secures_traverse fun axis f present => ?_
  cases present' : other.get? axis with
  | none => exact secures_pure (finite axis f present)
  | some o =>
    exact Secures.map ((Formula.secures_cross (finite axis f present)
      (finite' axis o present')).mono fun _ both => both.1)

end Genome

namespace Fractal

/-- The genome and all recorded parents have finite constants. -/
def IsFinite (f : Fractal) : Prop :=
  f.genome.IsFinite ∧ ∀ parent ∈ f.pedigree.parents, parent.IsFinite

theorem secures_mutateInPlace {f : Fractal} (finite : f.genome.IsFinite) :
    Secures (f.mutateInPlace settings) (·.genome.IsFinite) :=
  Secures.map (Genome.secures_mutate checked bounded finite)

theorem secures_rebred {f : Fractal} (finite : f.IsFinite) :
    Secures (f.rebred settings) Genome.IsFinite := by
  obtain ⟨own, parents⟩ := finite
  unfold rebred
  split
  next first second rest found =>
    rw [found] at parents
    exact Genome.secures_cross (parents _ (by simp)) (parents _ (by simp))
  next parent rest found =>
    rw [found] at parents
    exact Genome.secures_mutate checked bounded (parents _ (by simp))
  next => exact Genome.secures_mutate checked bounded own
  next parent rest found =>
    rw [found] at parents
    exact Genome.secures_introduce checked bounded (parents _ (by simp))
  next => exact Genome.secures_random checked bounded

theorem secures_redo {f : Fractal} (finite : f.IsFinite) : Secures (f.redo settings) IsFinite :=
  Secures.map ((secures_rebred checked bounded finite).mono fun _ new => ⟨new, finite.2⟩)

end Fractal

end Operators

namespace GeneticSettings

/-- No operator asks for an unusable range, whatever words it is given, and from formulas with
finite constants every operator makes formulas with finite constants. -/
structure Safe (settings : GeneticSettings) : Prop where
  constant : Secures (Growth.constant settings) (·.isFinite = true)
  node : Secures (Growth.node settings) Expr.IsFinite
  mutate : ∀ f : Formula, f.root.IsFinite → Secures (f.mutate settings) (·.root.IsFinite)
  introduce : ∀ f : Formula, f.root.IsFinite → Secures (f.introduce settings) (·.root.IsFinite)
  random : Secures (Genome.random settings) Genome.IsFinite
  mutateInPlace : ∀ f : Fractal, f.genome.IsFinite →
    Secures (f.mutateInPlace settings) (·.genome.IsFinite)
  redo : ∀ f : Fractal, f.IsFinite → Secures (f.redo settings) Fractal.IsFinite

variable {settings : GeneticSettings}

theorem Bounded.safe (bounded : settings.Bounded) (checked : settings.Checked) : settings.Safe where
  constant := Growth.secures_constant (checked.usable_constants bounded.constants)
  node := Growth.secures_node (checked.usable_constants bounded.constants)
  mutate := fun _ => Formula.secures_mutate checked bounded
  introduce := fun _ => Formula.secures_introduce checked bounded
  random := Genome.secures_random checked bounded
  mutateInPlace := fun _ => Fractal.secures_mutateInPlace checked bounded
  redo := fun _ => Fractal.secures_redo checked bounded

namespace Safe

theorem mutateConstant (safe : settings.Safe) {c : Number} (finite : c.value.isFinite = true) :
    Secures (Formula.mutateConstant settings c) (fun c => c.value.isFinite = true) := by
  have secures := safe.mutate (.ofExpr (.const c)) (Expr.isFinite_const.mpr finite)
  have secures := Secures.of_map (f := Formula.ofExpr) secures
  rw [Formula.ofExpr, Expr.traverseConstants_const] at secures
  exact (Secures.of_map (f := Expr.const) secures).mono fun _ => Expr.isFinite_const.mp

/-- The word zero lets a constant move if any word does. -/
theorem shifted (safe : settings.Safe) (may : 0 < settings.mutateChance) {c : Number}
    (finite : c.value.isFinite = true) :
    Secures (do
      let delta ← Draws.between (-settings.mutateRange) settings.mutateRange
      pure ((c.add delta).remainder settings.mutateFold)) (fun c => c.value.isFinite = true) := by
  have drawn : ∀ rest, Draws.unit ([0] ++ rest) = .ok (Draws.least, rest) := fun _ => rfl
  have secures := (safe.mutateConstant finite).after [0] drawn
  rwa [if_pos (Draws.least_lt may)] at secures

/-- A finite constant that moves down by the whole range stays finite and can be folded. -/
theorem exists_moved (safe : settings.Safe) (may : 0 < settings.mutateChance) {c : Number}
    (finite : c.value.isFinite = true) :
    settings.mutateRange.isFinite = true ∧ settings.mutateFold.value.isNaN = false ∧
      ∃ delta, delta.isFinite = true ∧ value delta = -value settings.mutateRange ∧
        (c.value + delta).isFinite = true := by
  have secures := safe.shifted may finite
  have isUsable := Draws.usable_of_secures secures.first
  have finiteRange := (Draws.isFinite_of_usable isUsable).2.2.2
  obtain ⟨delta, finiteDelta, low, drawn⟩ := Draws.between_zero isUsable
  rw [value_neg finiteRange] at low
  have last := (secures.after [0] drawn).ensures [] _ [] rfl
  obtain ⟨sum, number⟩ := isFinite_of_isFinite_remainder
    (Number.isFinite_of_apply remainder (c.add delta) settings.mutateFold last)
  exact ⟨finiteRange, number, delta, finiteDelta, low,
    Number.isFinite_of_apply (· + ·) c (.float delta) sum⟩

theorem bounded (safe : settings.Safe) : settings.Bounded where
  constants := (Draws.isFinite_of_usable (Draws.usable_of_secures safe.constant)).2.1
  shifts := by
    intro may
    have finiteTop : largest.isFinite = true := rfl
    have finite := isFinite_neg finiteTop
    obtain ⟨finiteRange, -, delta, finiteDelta, low, moved⟩ :=
      safe.exists_moved (c := .float (-largest)) may finite
    -- the largest number moves up where its negative moves down
    have down := (isRounded_add finite finiteDelta).isFinite_iff.mp moved
    rw [value_neg finiteTop, low, ← neg_add, rounded_neg, abs_neg] at down
    exact (isRounded_add finiteTop finiteRange).isFinite_iff.mpr down
  folds := fun may => (safe.exists_moved (c := .float 0) may isFinite_zero).2.1

end Safe

/-- Valid settings are safe exactly when they are bounded. -/
theorem safe_iff_bounded (settings : GeneticSettings) (valid : settings.fault? = none) :
    settings.Safe ↔ settings.Bounded :=
  ⟨Safe.bounded, fun bounded => bounded.safe (checked_of_fault? valid)⟩

theorem safe_iff_bounded_default :
    ({} : GeneticSettings).fault? = none ∧ ({} : GeneticSettings).Safe := by
  have valid : ({} : GeneticSettings).fault? = none := by decide +kernel
  refine ⟨valid, (safe_iff_bounded {} valid).mpr ⟨?_, fun _ => ?_, fun _ => ?_⟩⟩ <;>
    decide +kernel

/-- Settings whose constants are folded by what is no number. -/
def unfoldable : GeneticSettings := { mutateChance := 1, mutateFold := .float Binary64.nan }

/-- They are valid, because no comparison finds the fold at most zero; but the constants that move
are no numbers either. -/
theorem not_always_safe : unfoldable.fault? = none ∧ ¬ unfoldable.Safe := by
  refine ⟨by decide +kernel, fun safe => ?_⟩
  have number := safe.bounded.folds (by decide +kernel)
  exact absurd number (by decide +kernel)

end GeneticSettings

end FractalBreeder
