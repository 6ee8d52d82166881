import FractalBreeder.Heredity.Fractal
import FractalBreeder.Population.Picks

/-!
The nine fractals bred from the picked ones. No two of them have the same identity, because a
picture is filed under the identity of its fractal.
-/
namespace FractalBreeder.Litter

variable (settings : GeneticSettings)

/-- The child for a slot. The first row crosses two parents, which may be the same, the second
mutates one, the third introduces a new subtree into one. -/
def child (parents : List Fractal) (slot : Nat) : Draws Fractal :=
  match parents with
  | [] => Fractal.random settings
  | parent :: others => do
    let first ← Draws.pick parent others
    match slot / 3 with
    | 0 => do
      let second ← Draws.pick parent others
      first.cross second
    | 1 => first.mutate settings
    | _ => first.introduce settings

/-- Breeds again while the identity is taken, at most as often as given. -/
def retry (taken : List String) (again : Fractal → Draws Fractal) : Nat → Fractal → Draws Fractal
  | 0, f => pure f
  | attempts + 1, f =>
    if taken.contains f.id then do
      let f ← again f
      retry taken again attempts f
    else pure f

/-- Replaces a fractal whose identity is taken by random ones until one is free. Each takes at
least one word, so that the words are used up before the bound is. -/
def replaceWithin (taken : List String) : Nat → Fractal → Draws Fractal
  | 0, f => if taken.contains f.id then fun _ => .error .starved else pure f
  | bound + 1, f =>
    if taken.contains f.id then do
      let f ← Fractal.random settings
      replaceWithin taken bound f
    else pure f

def replace (taken : List String) (f : Fractal) : Draws Fractal :=
  fun words => replaceWithin settings taken (words.length + 1) f words

/-- Gives a child an identity of its own: it is bred again from its pedigree, then introduced from
its first parent, and becomes a random fractal only if both fail. -/
def settle (taken : List String) (f : Fractal) : Draws Fractal := do
  let attempts := settings.identityAttempts.toNat
  let f ← retry taken (·.redo settings) attempts f
  let f ← match f.pedigree.parents with
    | [] => pure f
    | parent :: _ => retry taken (fun _ => Fractal.introduced settings parent) attempts f
  replace settings taken f

/-- Settles the children in the order of their slots; the earlier ones keep their identity. -/
def settleAll (taken : List String) : List Fractal → Draws (List Fractal)
  | [] => pure []
  | f :: rest => do
    let f ← settle settings taken f
    let rest ← settleAll (f.id :: taken) rest
    pure (f :: rest)

def breed (parents : List Fractal) : Draws (List Fractal) := do
  let children ← (List.range generationSize).mapM (child settings parents)
  settleAll settings [] children

end FractalBreeder.Litter
