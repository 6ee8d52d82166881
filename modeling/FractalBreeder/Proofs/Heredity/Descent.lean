import FractalBreeder.Heredity.Fractal
import FractalBreeder.Proofs.Chance.Ensures

/-!
What a bred fractal has from its parents. The operators keep the axes of the genome they start from,
and breeding again from a pedigree keeps the pedigree.
-/
namespace FractalBreeder

open Draws (Ensures ensures_pure ensures_any)

namespace Genome

def SameAxes (genome other : Genome) : Prop :=
  ∀ axis, (genome.get? axis).isSome = (other.get? axis).isSome

theorem ensures_traverseAxis (f : Formula → Draws Formula) (formula : Option Formula) :
    Ensures (traverseAxis f formula) (fun result => result.isSome = formula.isSome) := by
  cases formula with
  | none => exact ensures_pure rfl
  | some formula =>
      apply Ensures.map
      exact (ensures_any (f formula)).mono fun _ _ => rfl

theorem ensures_traverse (f : Axis → Formula → Draws Formula) (genome : Genome) :
    Ensures (genome.traverse f) (SameAxes · genome) := by
  unfold traverse
  refine (ensures_traverseAxis _ _).bind fun x sameX => ?_
  refine (ensures_traverseAxis _ _).bind fun y sameY => ?_
  refine (ensures_traverseAxis _ _).bind fun z sameZ => ?_
  refine (ensures_traverseAxis _ _).bind fun r sameR => ?_
  refine (ensures_traverseAxis _ _).bind fun g sameG => ?_
  refine (ensures_traverseAxis _ _).bind fun b sameB => ?_
  apply ensures_pure
  intro axis
  cases axis with
  | x => exact sameX
  | y => exact sameY
  | z => exact sameZ
  | r => exact sameR
  | g => exact sameG
  | b => exact sameB

end Genome

def Operation.parentCount : Operation → Nat
  | cross => 2
  | mutate => 1
  | introduce => 1
  | random => 0

/-- The operation has as many parents as it takes. -/
inductive Pedigree.Complete : Pedigree → Prop where
  | cross (first second : Genome) : Complete ⟨.cross, [first, second]⟩
  | mutate (parent : Genome) : Complete ⟨.mutate, [parent]⟩
  | introduce (parent : Genome) : Complete ⟨.introduce, [parent]⟩
  | random : Complete ⟨.random, []⟩

theorem Pedigree.Complete.length_parents {pedigree : Pedigree} (complete : pedigree.Complete) :
    pedigree.parents.length = pedigree.operation.parentCount := by
  cases complete with
  | cross _ _ => rfl
  | mutate _ => rfl
  | introduce _ => rfl
  | random => rfl

namespace Fractal

open Genome (SameAxes ensures_traverse)

/-- A fractal that was bred and not rendered yet, with all its parents among the given genomes. -/
structure Bred (ancestors : List Genome) (f : Fractal) : Prop where
  identity : f.id = f.genome.identity
  pending : f.state = .pending
  blank : f.image = none
  complete : f.pedigree.Complete
  descent : ∀ parent ∈ f.pedigree.parents, parent ∈ ancestors
  axes : ∀ parent ∈ f.pedigree.parents.head?, SameAxes f.genome parent

variable {ancestors : List Genome} (settings : GeneticSettings)

theorem ensures_random (ancestors : List Genome) :
    Ensures (random settings) (fun f => Bred ancestors f ∧ f.pedigree = ⟨.random, []⟩) := by
  refine (ensures_any _).bind fun genome _ => ensures_pure ⟨⟨rfl, rfl, rfl, .random, ?_, ?_⟩, rfl⟩
  · intro parent member
    cases member
  · intro parent head
    cases head

/-- A child that starts from the genome of its first parent. -/
theorem ensures_child (f : Axis → Formula → Draws Formula) {first : Genome} {others : List Genome}
    {operation : Operation} (complete : Pedigree.Complete ⟨operation, first :: others⟩)
    (known : ∀ parent ∈ first :: others, parent ∈ ancestors) :
    Ensures (do pure (new (← first.traverse f) ⟨operation, first :: others⟩))
      (fun child => Bred ancestors child ∧ child.pedigree = ⟨operation, first :: others⟩) := by
  refine (ensures_traverse f first).bind fun genome same => ensures_pure ⟨?_, rfl⟩
  refine ⟨rfl, rfl, rfl, complete, known, ?_⟩
  intro parent head
  obtain rfl := Option.some.inj head
  exact same

theorem ensures_cross {f other : Fractal} (first : f.genome ∈ ancestors)
    (second : other.genome ∈ ancestors) :
    Ensures (f.cross other)
      (fun child => Bred ancestors child ∧ child.pedigree = ⟨.cross, [f.genome, other.genome]⟩) :=
  ensures_child _ (.cross f.genome other.genome)
    (List.forall_mem_cons.mpr ⟨first, List.forall_mem_singleton.mpr second⟩)

theorem ensures_mutate {f : Fractal} (known : f.genome ∈ ancestors) :
    Ensures (f.mutate settings)
      (fun child => Bred ancestors child ∧ child.pedigree = ⟨.mutate, [f.genome]⟩) :=
  ensures_child _ (.mutate f.genome) (List.forall_mem_singleton.mpr known)

theorem ensures_introduced {parent : Genome} (known : parent ∈ ancestors) :
    Ensures (introduced settings parent)
      (fun child => Bred ancestors child ∧ child.pedigree = ⟨.introduce, [parent]⟩) :=
  ensures_child _ (.introduce parent) (List.forall_mem_singleton.mpr known)

theorem ensures_rebred {f : Fractal} (complete : f.pedigree.Complete) :
    Ensures (f.rebred settings)
      (fun genome => ∀ parent ∈ f.pedigree.parents.head?, SameAxes genome parent) := by
  unfold rebred
  generalize f.pedigree = pedigree at complete
  cases complete with
  | cross first second =>
      refine (ensures_traverse _ first).mono fun genome same parent head => ?_
      exact Option.some.inj head ▸ same
  | mutate first =>
      refine (ensures_traverse _ first).mono fun genome same parent head => ?_
      exact Option.some.inj head ▸ same
  | introduce first =>
      refine (ensures_traverse _ first).mono fun genome same parent head => ?_
      exact Option.some.inj head ▸ same
  | random =>
      refine (ensures_any _).mono fun genome _ parent head => ?_
      cases head

/-- Breeding again from the pedigree keeps the pedigree. -/
theorem ensures_redo {f : Fractal} (bred : Bred ancestors f) :
    Ensures (f.redo settings) (fun g => Bred ancestors g ∧ g.pedigree = f.pedigree) := by
  apply Ensures.map
  refine (ensures_rebred settings bred.complete).mono fun genome axes => ⟨?_, rfl⟩
  exact ⟨rfl, bred.pending, bred.blank, bred.complete, bred.descent, axes⟩

end Fractal

end FractalBreeder
