import FractalBreeder.Number.Basic

/-!
Settings of the genetic operators and of random growth.
-/
namespace FractalBreeder

structure GeneticSettings where
  /-- Chance that a grown node is an operator and not a leaf. -/
  operatorChance : Float := 0.35
  constantMin : Float := -2
  constantMax : Float := 2
  /-- Chance that mutation moves a constant. -/
  mutateChance : Float := 0.25
  /-- A moved constant shifts by at most this much. -/
  mutateRange : Float := 0.5
  /-- A moved constant is reduced modulo this number. -/
  mutateFold : Number := .float 2
  maxTreeDepth : UInt64 := 8
  /-- How often a child that is equal to a sibling is bred again. -/
  identityAttempts : UInt64 := 8

inductive GeneticFault where
  | operatorChance
  | mutateChance
  | constantRange
  | mutateRange
  | mutateFold
  | maxTreeDepth
  deriving DecidableEq, Repr

namespace GeneticFault

def text : GeneticFault → String
  | operatorChance => "Operator chance must be between 0 and 1"
  | mutateChance => "Mutate chance must be between 0 and 1"
  | constantRange => "Constant range must not be empty"
  | mutateRange => "Mutate range must be positive"
  | mutateFold => "Mutate fold must be positive"
  | maxTreeDepth => "Max tree depth must be at least 1"

end GeneticFault

namespace GeneticSettings

def isChance (x : Float) : Bool := 0 ≤ x && x ≤ 1

/-- The first fault, if there is one. A comparison with something that is not a number fails, so
that only the chances rule it out. -/
def fault? (s : GeneticSettings) : Option GeneticFault :=
  if !isChance s.operatorChance then some .operatorChance
  else if !isChance s.mutateChance then some .mutateChance
  else if s.constantMax ≤ s.constantMin then some .constantRange
  else if s.mutateRange ≤ 0 then some .mutateRange
  else if s.mutateFold.value ≤ 0 then some .mutateFold
  else if s.maxTreeDepth = 0 then some .maxTreeDepth
  else none

end GeneticSettings

end FractalBreeder
