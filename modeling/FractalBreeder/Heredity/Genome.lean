import FractalBreeder.Digest.Blake3
import FractalBreeder.Heredity.Variation

/-!
A genome has at most one formula per axis: three axes of space and three of colour. Its identity
is a digest of the texts of its formulas.
-/
namespace FractalBreeder

inductive Axis where
  | x | y | z | r | g | b
  deriving DecidableEq, Repr

namespace Axis

/-- The order in which a renderer takes its arguments. -/
def all : List Axis := [x, y, z, r, g, b]

def label : Axis → String
  | x => "x"
  | y => "y"
  | z => "z"
  | r => "r"
  | g => "g"
  | b => "b"

/-- What a renderer is given for an axis without a formula. -/
def absent : Axis → String
  | x | y | z => "0"
  | r | g | b => "1"

def ofLabel? (label : String) : Option Axis := all.find? (·.label == label)

end Axis

structure Genome where
  x : Option Formula := none
  y : Option Formula := none
  z : Option Formula := none
  r : Option Formula := none
  g : Option Formula := none
  b : Option Formula := none
  deriving BEq, Inhabited

namespace Genome

def get? (genome : Genome) : Axis → Option Formula
  | .x => genome.x
  | .y => genome.y
  | .z => genome.z
  | .r => genome.r
  | .g => genome.g
  | .b => genome.b

def set (genome : Genome) (axis : Axis) (f : Formula) : Genome :=
  match axis with
  | .x => { genome with x := some f }
  | .y => { genome with y := some f }
  | .z => { genome with z := some f }
  | .r => { genome with r := some f }
  | .g => { genome with g := some f }
  | .b => { genome with b := some f }

/-- The formulas with their axes, in the order of the axes. -/
def entries (genome : Genome) : List (Axis × Formula) :=
  Axis.all.filterMap fun axis => (genome.get? axis).map (axis, ·)

/-- One line per formula: the label of the axis, an equals sign and the text. -/
def signature (genome : Genome) : String :=
  String.join (genome.entries.map fun (axis, f) => axis.label ++ "=" ++ f.text ++ "\n")

/-- The first 64 bits of the digest of the signature. -/
def identity (genome : Genome) : String :=
  "fractal_" ++ String.ofList ((Blake3.hex genome.signature.toUTF8.toList).take 16)

/-- One text per axis. -/
def arguments (genome : Genome) : List String :=
  Axis.all.map fun axis => match genome.get? axis with
    | some f => f.text
    | none => axis.absent

def traverseAxis {m : Type → Type} [Monad m] (f : Formula → m Formula) :
    Option Formula → m (Option Formula)
  | some formula => some <$> f formula
  | none => pure none

/-- Passes every formula through `f`, in the order of the axes. -/
def traverse {m : Type → Type} [Monad m] (f : Axis → Formula → m Formula) (genome : Genome) :
    m Genome := do
  let x ← traverseAxis (f .x) genome.x
  let y ← traverseAxis (f .y) genome.y
  let z ← traverseAxis (f .z) genome.z
  let r ← traverseAxis (f .r) genome.r
  let g ← traverseAxis (f .g) genome.g
  let b ← traverseAxis (f .b) genome.b
  pure { x, y, z, r, g, b }

/-- An attractor in x and y with a plane for the depth. -/
def random (settings : GeneticSettings) : Draws Genome := do
  let x ← Growth.attractor settings
  let y ← Growth.attractor settings
  let z ← Growth.plane settings
  pure { x := some x, y := some y, z := some z }

/-- Crosses axis by axis and keeps the first child of each pair; an axis that the other genome
lacks stays as it is. -/
def cross (genome other : Genome) : Draws Genome :=
  genome.traverse fun axis f => match other.get? axis with
    | some o => Prod.fst <$> f.cross o
    | none => pure f

def mutate (settings : GeneticSettings) (genome : Genome) : Draws Genome :=
  genome.traverse fun _ f => f.mutate settings

def introduce (settings : GeneticSettings) (genome : Genome) : Draws Genome :=
  genome.traverse fun _ f => f.introduce settings

end Genome

end FractalBreeder
