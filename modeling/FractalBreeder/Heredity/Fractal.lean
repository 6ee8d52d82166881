import FractalBreeder.Heredity.Genome
import FractalBreeder.Storage.Image

/-!
A fractal is a genome with its identity, the pedigree it was bred from, and the state of its
picture. Breeding records the genomes of the parents, so a fractal can be bred once more later.
-/
namespace FractalBreeder

inductive Operation where
  | cross | mutate | introduce | random
  deriving DecidableEq, Repr

namespace Operation

def all : List Operation := [cross, mutate, introduce, random]

def name : Operation → String
  | cross => "cross"
  | mutate => "mutate"
  | introduce => "introduce"
  | random => "random"

def ofName? (name : String) : Option Operation := all.find? (·.name == name)

end Operation

/-- How a fractal was bred, with the genomes of its parents at that time. -/
structure Pedigree where
  operation : Operation
  parents : List Genome
  deriving BEq

inductive RenderState where
  | pending | rendering | ready | discarded | failed
  deriving DecidableEq, Repr

namespace RenderState

def name : RenderState → String
  | pending => "Pending"
  | rendering => "Rendering"
  | ready => "Ready"
  | discarded => "Discarded"
  | failed => "Failed"

end RenderState

structure Fractal where
  id : String
  genome : Genome
  pedigree : Pedigree
  state : RenderState := .pending
  image : Option Image := none

namespace Fractal

def new (genome : Genome) (pedigree : Pedigree) : Fractal :=
  { id := genome.identity, genome, pedigree }

def random (settings : GeneticSettings) : Draws Fractal := do
  let genome ← Genome.random settings
  pure (new genome ⟨.random, []⟩)

def cross (f other : Fractal) : Draws Fractal := do
  let genome ← f.genome.cross other.genome
  pure (new genome ⟨.cross, [f.genome, other.genome]⟩)

def mutate (settings : GeneticSettings) (f : Fractal) : Draws Fractal := do
  let genome ← f.genome.mutate settings
  pure (new genome ⟨.mutate, [f.genome]⟩)

/-- The child of one recorded genome. -/
def introduced (settings : GeneticSettings) (parent : Genome) : Draws Fractal := do
  let genome ← parent.introduce settings
  pure (new genome ⟨.introduce, [parent]⟩)

def introduce (settings : GeneticSettings) (f : Fractal) : Draws Fractal :=
  introduced settings f.genome

/-- The same fractal with another genome; the identity follows the genome. -/
def withGenome (f : Fractal) (genome : Genome) : Fractal :=
  { f with genome, id := genome.identity }

/-- Moves the constants of the genome; the pedigree stays. -/
def mutateInPlace (settings : GeneticSettings) (f : Fractal) : Draws Fractal :=
  f.withGenome <$> f.genome.mutate settings

/-- A genome bred again as the pedigree says; where parents are missing, one of no parents. -/
def rebred (settings : GeneticSettings) (f : Fractal) : Draws Genome :=
  match f.pedigree.operation, f.pedigree.parents with
  | .cross, first :: second :: _ => first.cross second
  | .mutate, parent :: _ => parent.mutate settings
  | .mutate, [] => f.genome.mutate settings
  | .introduce, parent :: _ => parent.introduce settings
  | _, _ => Genome.random settings

def redo (settings : GeneticSettings) (f : Fractal) : Draws Fractal :=
  f.withGenome <$> f.rebred settings

end Fractal

end FractalBreeder
