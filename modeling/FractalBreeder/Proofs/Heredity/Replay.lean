import Mathlib.Logic.Relation
import FractalBreeder.Proofs.Chance.Ensures
import FractalBreeder.Heredity.Fractal

/-!
A pedigree holds all that a breeding depends on but the words. So a child can be bred again just as
it was born, whatever has happened to it and to its parents in the meantime.
-/
namespace FractalBreeder

/-- A breeding of fractals in a gallery, which are named by their places. -/
inductive Breeding where
  | random
  | cross (first second : Nat)
  | mutate (parent : Nat)
  | introduce (parent : Nat)

/-- The choice of the child, if all parents are there. -/
def Breeding.child? (settings : GeneticSettings) (gallery : List Fractal) :
    Breeding → Option (Draws Fractal)
  | random => some (Fractal.random settings)
  | cross first second => do
    let f ← gallery[first]?
    let other ← gallery[second]?
    some (f.cross other)
  | mutate parent => gallery[parent]?.map (·.mutate settings)
  | introduce parent => gallery[parent]?.map (·.introduce settings)

/-- What may happen later to a gallery with a child at the given place. The child may be mutated or bred
again, from any source, and get another picture; to the others anything may happen. -/
inductive Alters (child : Nat) : List Fractal → List Fractal → Prop where
  | mutated {gallery : List Fractal} {f g : Fractal} {settings : GeneticSettings}
      {source left : Source} (found : gallery[child]? = some f)
      (ran : source.draw (f.mutateInPlace settings) = .ok (g, left)) :
      Alters child gallery (gallery.set child g)
  | redone {gallery : List Fractal} {f g : Fractal} {settings : GeneticSettings}
      {source left : Source} (found : gallery[child]? = some f)
      (ran : source.draw (f.redo settings) = .ok (g, left)) :
      Alters child gallery (gallery.set child g)
  | pictured {gallery : List Fractal} {f : Fractal} (found : gallery[child]? = some f)
      (state : RenderState) (image : Option Image) :
      Alters child gallery (gallery.set child { f with state, image })
  | replaced {gallery : List Fractal} {place : Nat} (other : place ≠ child) (g : Fractal) :
      Alters child gallery (gallery.set place g)
  | joined {gallery : List Fractal} (g : Fractal) : Alters child gallery (gallery ++ [g])

namespace Fractal

variable {settings : GeneticSettings} {f g : Fractal} {source left : Source}

theorem withGenome_of_draw {choice : Draws Genome}
    (ran : source.draw (f.withGenome <$> choice) = .ok (g, left)) :
    ∃ genome, source.draw choice = .ok (genome, left) ∧ g = f.withGenome genome := by
  rw [Source.draw_map] at ran
  cases drawn : source.draw choice with
  | error halt =>
    rw [drawn] at ran
    cases ran
  | ok result =>
    rw [drawn] at ran
    cases ran
    exact ⟨result.1, rfl, rfl⟩

/-- Two states of one fractal: it was bred as before, and its identity is that of its genome. -/
structure Descends (f origin : Fractal) : Prop where
  pedigree : f.pedigree = origin.pedigree
  identity : f.id = f.genome.identity

theorem Descends.withGenome {origin : Fractal} (descends : f.Descends origin) (genome : Genome) :
    (f.withGenome genome).Descends origin :=
  ⟨descends.pedigree, rfl⟩

/-- A breeding chooses a genome and records all that the choice depends on. -/
theorem exists_genome_of_child? {breeding : Breeding} {gallery : List Fractal} {choice : Draws Fractal}
    (chosen : breeding.child? settings gallery = some choice) :
    ∃ (genome : Draws Genome) (pedigree : Pedigree), choice = (new · pedigree) <$> genome ∧
      ∀ f : Fractal, f.pedigree = pedigree → f.rebred settings = genome := by
  cases breeding with
  | random =>
    cases chosen
    refine ⟨Genome.random settings, ⟨.random, []⟩, (map_eq_pure_bind _ _).symm, fun f bred => ?_⟩
    rw [rebred, bred]
  | cross first second =>
    obtain ⟨f, -, chosen⟩ := Option.bind_eq_some_iff.mp chosen
    obtain ⟨other, -, chosen⟩ := Option.bind_eq_some_iff.mp chosen
    cases chosen
    refine ⟨f.genome.cross other.genome, ⟨.cross, [f.genome, other.genome]⟩,
      (map_eq_pure_bind _ _).symm, fun f bred => ?_⟩
    rw [rebred, bred]
  | mutate parent =>
    obtain ⟨f, -, rfl⟩ := Option.map_eq_some_iff.mp chosen
    refine ⟨f.genome.mutate settings, ⟨.mutate, [f.genome]⟩, (map_eq_pure_bind _ _).symm,
      fun f bred => ?_⟩
    rw [rebred, bred]
  | introduce parent =>
    obtain ⟨f, -, rfl⟩ := Option.map_eq_some_iff.mp chosen
    refine ⟨f.genome.introduce settings, ⟨.introduce, [f.genome]⟩, (map_eq_pure_bind _ _).symm,
      fun f bred => ?_⟩
    rw [rebred, bred]

/-- A fractal with the pedigree of a child is bred again as the child was. -/
theorem redo_of_pedigree {breeding : Breeding} {gallery : List Fractal} {choice : Draws Fractal}
    {child : Fractal} (chosen : breeding.child? settings gallery = some choice)
    (born : source.draw choice = .ok (child, left)) :
    child.Descends child ∧ ∀ f : Fractal, f.pedigree = child.pedigree →
      source.draw (f.redo settings) = .ok (f.withGenome child.genome, left) := by
  obtain ⟨genome, pedigree, rfl, depends⟩ := exists_genome_of_child? chosen
  rw [Source.draw_map] at born
  cases drawn : source.draw genome with
  | error halt =>
    rw [drawn] at born
    cases born
  | ok result =>
    rw [drawn] at born
    cases born
    refine ⟨⟨rfl, rfl⟩, fun f same => ?_⟩
    rw [redo, Source.draw_map, depends f same, drawn]
    rfl

/-- No change of the gallery touches the pedigree of the child or parts it from its identity. -/
theorem Descends.alters {child : Nat} {origin : Fractal} {before after : List Fractal}
    (alters : Alters child before after)
    (descends : ∃ f, before[child]? = some f ∧ f.Descends origin) :
    ∃ f, after[child]? = some f ∧ f.Descends origin := by
  obtain ⟨f, found, descends⟩ := descends
  have inside : child < before.length := (List.getElem?_eq_some_iff.mp found).1
  cases alters with
  | mutated found' ran | redone found' ran =>
    cases found.symm.trans found'
    obtain ⟨genome, -, rfl⟩ := withGenome_of_draw ran
    exact ⟨_, List.getElem?_set_self inside, descends.withGenome genome⟩
  | pictured found' state image =>
    cases found.symm.trans found'
    exact ⟨_, List.getElem?_set_self inside, descends.pedigree, descends.identity⟩
  | replaced other g =>
    rw [List.getElem?_set_ne other]
    exact ⟨f, found, descends⟩
  | joined g =>
    rw [List.getElem?_append_left inside]
    exact ⟨f, found, descends⟩

/-- However a gallery changes after a breeding, the child keeps its pedigree and the identity of its
genome; and bred again from the source that it was born from, it is what it was, with the same words
left. -/
theorem redo_restores {breeding : Breeding} {gallery later : List Fractal} {choice : Draws Fractal}
    {child : Fractal} (chosen : breeding.child? settings gallery = some choice)
    (born : source.draw choice = .ok (child, left))
    (changed : Relation.ReflTransGen (Alters gallery.length) (gallery ++ [child]) later) :
    ∃ f g, later[gallery.length]? = some f ∧ f.pedigree = child.pedigree ∧
      f.id = f.genome.identity ∧ source.draw (f.redo settings) = .ok (g, left) ∧
        g.genome = child.genome ∧ g.id = child.id ∧ g.pedigree = child.pedigree := by
  obtain ⟨newborn, again⟩ := redo_of_pedigree chosen born
  have kept : ∃ f, later[gallery.length]? = some f ∧ f.Descends child := by
    induction changed with
    | refl => exact ⟨child, List.getElem?_concat_length, newborn⟩
    | tail _ alters ih => exact Descends.alters alters ih
  obtain ⟨f, found, descends⟩ := kept
  exact ⟨f, f.withGenome child.genome, found, descends.pedigree, descends.identity,
    again f descends.pedigree, rfl, newborn.identity.symm, descends.pedigree⟩

/-- A child of two parents, which is then mutated while its first parent is replaced. -/
theorem redo_restores_crossed :
    let first := Fractal.new { x := some (.ofExpr (.binary .add (.var .x) (.const (.float 1)))) }
      ⟨.random, []⟩
    let second := Fractal.new { x := some (.ofExpr (.unary .sin (.var .y))) } ⟨.random, []⟩
    let child := Fractal.new { x := some (.ofExpr (.binary .add (.var .y) (.const (.float 1)))) }
      ⟨.cross, [first.genome, second.genome]⟩
    let mutant := child.withGenome
      { x := some (.ofExpr (.binary .add (.var .y) (.const (.float 0.5)))) }
    ∃ g, (Source.ofWords [0, 0] 7).draw (mutant.redo {}) = .ok (g, .ofWords [] 7) ∧
      g.genome = child.genome ∧ g.id = child.id ∧ g.pedigree = child.pedigree := by
  intro first second child mutant
  have chosen : (Breeding.cross 0 1).child? {} [first, second] = some (first.cross second) := rfl
  have born : (Source.ofWords [0, 0] 7).draw (first.cross second) = .ok (child, .ofWords [] 7) := by
    with_unfolding_all rfl
  have moved : (Source.ofWords [0, 0] 3).draw (child.mutateInPlace { mutateChance := 1 }) =
      .ok (mutant, .ofWords [] 3) := by
    with_unfolding_all rfl
  have other : (0 : Nat) ≠ 2 := by decide
  have changed : Relation.ReflTransGen (Alters 2) [first, second, child] [second, second, mutant] :=
    (Relation.ReflTransGen.single (.mutated rfl moved)).tail (.replaced other second)
  obtain ⟨f, g, found, -, -, again, restored⟩ := redo_restores chosen born changed
  cases found
  exact ⟨g, again, restored⟩

end Fractal

end FractalBreeder
