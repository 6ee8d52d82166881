import FractalBreeder.Document.Heredity
import FractalBreeder.Population.Basic

/-!
The saved form of a population. The generations before and after the current one are saved in the
order in which they were left, the nearest last.
-/
namespace FractalBreeder

namespace Picks

def toDocument (p : Picks) : Document := .int p.bits.toNat

def ofDocument? (d : Document) : Option Picks := do
  pure ⟨UInt16.ofNat (← d.natBelow? (UInt16.size))⟩

end Picks

namespace Population

def listToDocument (fractals : List Fractal) : Document := .list (fractals.map (·.toDocument))

def listOfDocument? (d : Document) : Option (List Fractal) := do
  (← d.list?).mapM Fractal.ofDocument?

def numberOfDocument? (d : Document) : Option UInt32 := do
  pure (UInt32.ofNat (← d.natBelow? (UInt32.size)))

def generationToDocument (g : Generation Fractal) : Document :=
  .record [("number", .int g.number.toNat), ("fractals", listToDocument g.members)]

def generationOfDocument? (d : Document) : Option (Generation Fractal) := do
  match ← d.fields? ["number", "fractals"] with
  | [number, fractals] => pure ⟨← numberOfDocument? number, ← listOfDocument? fractals⟩
  | _ => none

def stackToDocument (stack : List (Generation Fractal)) : Document :=
  .list (stack.reverse.map generationToDocument)

def stackOfDocument? (d : Document) : Option (List (Generation Fractal)) := do
  pure (← (← d.list?).mapM generationOfDocument?).reverse

def toDocument (p : Population) : Document :=
  .record [("generation", .int p.number.toNat), ("current", listToDocument p.current),
    ("selected", p.picks.toDocument), ("past", stackToDocument p.past),
    ("future", stackToDocument p.future)]

def ofDocument? (d : Document) : Option Population := do
  match ← d.fields? ["generation", "current", "selected", "past", "future"] with
  | [number, current, picks, past, future] =>
    pure { number := ← numberOfDocument? number, current := ← listOfDocument? current,
           picks := ← Picks.ofDocument? picks, past := ← stackOfDocument? past,
           future := ← stackOfDocument? future }
  | _ => none

/-- What is read from the file that a population is saved in. -/
def reload? (p : Population) : Option Population := do ofDocument? (← p.toDocument.reread?)

end Population

end FractalBreeder
