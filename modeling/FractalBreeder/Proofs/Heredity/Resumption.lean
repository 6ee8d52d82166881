import FractalBreeder.Proofs.Chance.Resumption
import FractalBreeder.Proofs.Heredity.Safety

/-!
The genetic operators are never trapped where constants can be drawn and, if they may move, shifts
can be drawn too.
-/
namespace FractalBreeder

open Draws (Resumes resumes_pure)

theorem Expr.resumes_traverseConstants {f : Number → Draws Number} (each : ∀ c, Resumes 0 (f c))
    (e : Expr) : Resumes 0 (e.traverseConstants f) := by
  induction e with
  | const c =>
    rw [Expr.traverseConstants_const]
    exact (each c).map const
  | var v =>
    rw [Expr.traverseConstants_var]
    exact resumes_pure
  | unary op a ih =>
    rw [Expr.traverseConstants_unary]
    exact ih.map (unary op)
  | binary op a b iha ihb =>
    rw [Expr.traverseConstants_binary]
    exact iha.then fun a => ihb.then fun b => resumes_pure
  | ternary op a b c iha ihb ihc =>
    rw [Expr.traverseConstants_ternary]
    exact iha.then fun a => ihb.then fun b => ihc.then fun c => resumes_pure

theorem Genome.resumes_traverse {f : Axis → Formula → Draws Formula}
    (each : ∀ axis formula, Resumes 0 (f axis formula)) (genome : Genome) :
    Resumes 0 (genome.traverse f) := by
  have onAxis : ∀ axis formula?, Resumes 0 (traverseAxis (f axis) formula?) := by
    intro axis formula?
    cases formula? with
    | none => exact resumes_pure
    | some formula => exact (each axis formula).map some
  unfold traverse
  exact (onAxis .x _).then fun x => (onAxis .y _).then fun y => (onAxis .z _).then fun z =>
    (onAxis .r _).then fun r => (onAxis .g _).then fun g => (onAxis .b _).then fun b =>
      resumes_pure

theorem Formula.resumes_cross (a b : Formula) : Resumes 0 (a.cross b) := by
  unfold cross
  split_ifs with small
  · exact resumes_pure
  · simp only [Bool.or_eq_true, decide_eq_true_eq] at small
    refine (Draws.resumes_index (by omega)).weaken.then fun p => ?_
    exact (Draws.resumes_index (by omega)).weaken.then fun q => resumes_pure

theorem Genome.resumes_cross (genome other : Genome) : Resumes 0 (genome.cross other) := by
  refine resumes_traverse (fun axis f => ?_) genome
  cases other.get? axis with
  | none => exact resumes_pure
  | some o => exact (Formula.resumes_cross f o).map Prod.fst

section

variable {settings : GeneticSettings} (shifts : 0 < settings.mutateChance →
  Draws.usable (-settings.mutateRange) settings.mutateRange = true)
include shifts

theorem Formula.resumes_mutateConstant (c : Number) : Resumes 0 (mutateConstant settings c) := by
  have bounded : Draws.Ensures Draws.unit (fun x => x.isFinite = true ∧ 0 ≤ Binary64.value x) :=
    Draws.secures_unit.ensures
  refine Draws.resumes_unit.weaken.bind bounded fun chance ⟨finite, nonneg⟩ => ?_
  split_ifs with moves
  · have drawn := shifts (GeneticSettings.pos_of_lt finite nonneg moves)
    exact (Draws.resumes_between drawn).weaken.then fun delta => resumes_pure
  · exact resumes_pure

theorem Formula.resumes_mutate (f : Formula) : Resumes 0 (f.mutate settings) :=
  (Expr.resumes_traverseConstants (resumes_mutateConstant shifts) f.root).map ofExpr

theorem Genome.resumes_mutate (genome : Genome) : Resumes 0 (genome.mutate settings) :=
  resumes_traverse (fun _ => Formula.resumes_mutate shifts) genome

end

/-- A constant can be drawn, and if constants may move, so can a shift. -/
structure GeneticSettings.Drawable (settings : GeneticSettings) : Prop where
  constants : Draws.usable settings.constantMin settings.constantMax = true
  shifts : 0 < settings.mutateChance →
    Draws.usable (-settings.mutateRange) settings.mutateRange = true

variable {settings : GeneticSettings} (drawable : settings.Drawable)
include drawable

namespace Growth

theorem resumes_constant : Resumes 1 (constant settings) :=
  Draws.resumes_between drawable.constants

theorem resumes_leaf : Resumes 0 (leaf settings) := by
  refine (Draws.resumes_index (by decide)).weaken.then fun i => ?_
  cases Variable.all[i]? with
  | some v => exact resumes_pure
  | none => exact (resumes_constant drawable).weaken.then fun c => resumes_pure

theorem resumes_tree (levels : Nat) : Resumes 0 (tree settings levels) := by
  induction levels with
  | zero => exact resumes_leaf drawable
  | succ levels ih =>
    refine Draws.resumes_unit.weaken.then fun chance => ?_
    split_ifs
    · exact resumes_leaf drawable
    · refine (Draws.resumes_pick _ _).weaken.then fun operator => ?_
      cases operator with
      | unary op => exact ih.then fun a => resumes_pure
      | binary op => exact ih.then fun a => ih.then fun b => resumes_pure
      | ternary op =>
        exact ih.then fun a => ih.then fun b => ih.then fun c => resumes_pure

theorem resumes_attractor : Resumes 1 (attractor settings) :=
  (resumes_constant drawable).then fun _ =>
    (resumes_constant drawable).weaken.then fun _ => resumes_pure

theorem resumes_plane : Resumes 1 (plane settings) :=
  (resumes_constant drawable).then fun _ =>
    (resumes_constant drawable).weaken.then fun _ => resumes_pure

end Growth

namespace Formula

theorem resumes_introduce (f : Formula) : Resumes 0 (f.introduce settings) := by
  refine (Draws.resumes_index f.root.leaves_pos).weaken.then fun i => ?_
  exact (Growth.resumes_tree drawable _).then fun grown => resumes_pure

end Formula

namespace Genome

theorem resumes_introduce (genome : Genome) : Resumes 0 (genome.introduce settings) :=
  resumes_traverse (fun _ => Formula.resumes_introduce drawable) genome

theorem resumes_random : Resumes 1 (random settings) :=
  (Growth.resumes_attractor drawable).then fun _ =>
    (Growth.resumes_attractor drawable).weaken.then fun _ =>
      (Growth.resumes_plane drawable).weaken.then fun _ => resumes_pure

end Genome

namespace Fractal

theorem resumes_random : Resumes 1 (random settings) :=
  (Genome.resumes_random drawable).then fun _ => resumes_pure

theorem resumes_introduced (parent : Genome) : Resumes 0 (introduced settings parent) :=
  (Genome.resumes_introduce drawable parent).then fun _ => resumes_pure

theorem resumes_redo (f : Fractal) : Resumes 0 (f.redo settings) := by
  refine Resumes.map ?_ f.withGenome
  unfold rebred
  split
  · exact Genome.resumes_cross _ _
  · exact Genome.resumes_mutate drawable.shifts _
  · exact Genome.resumes_mutate drawable.shifts _
  · exact Genome.resumes_introduce drawable _
  · exact (Genome.resumes_random drawable).weaken

end Fractal

end FractalBreeder
