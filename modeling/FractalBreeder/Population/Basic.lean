import FractalBreeder.Population.History
import FractalBreeder.Population.Litter

/-!
A population is a history of fractals.
-/
namespace FractalBreeder

abbrev Population := History Fractal

namespace Population

/-- Breeds the next generation from the picked fractals. -/
def breed (settings : GeneticSettings) (p : Population) : Draws Population := do
  let children ← Litter.breed settings p.picked
  pure (p.advance children)

/-- Replaces the fractal of a slot by what `edit` makes of it; nothing is drawn for a slot that
is empty. -/
def edit (p : Population) (slot : Nat) (edit : Fractal → Draws Fractal) : Draws Population :=
  match p.current[slot]? with
  | some f => do
    let f ← edit f
    pure { p with current := p.current.set slot f }
  | none => pure p

end Population

end FractalBreeder
