import FractalBreeder.Heredity.Fractal
import FractalBreeder.Rendering.Renderer
import FractalBreeder.Storage.ImageStore

/-!
A fractal and its picture: asking for it, judging it, taking it over and dropping it.
-/
namespace FractalBreeder.Fractal

def request (f : Fractal) (store : ImageStore) : Request where
  identity := f.id
  stem := store.stem f.id
  output := store.path f.id
  arguments := f.genome.arguments

/-- A picture is sparse when its file is shorter than the threshold. -/
def isSparse (f : Fractal) (store : ImageStore) (disk : Disk) (threshold : UInt64) :
    Except IoFault Bool := do
  let size ← store.size disk f.id
  pure (size < threshold.toNat)

/-- Reads the picture into memory and removes its file. -/
def takePicture (f : Fractal) (store : ImageStore) (disk : Disk) : Except IoFault (Fractal × Disk) := do
  let (image, disk) ← store.load disk f.id
  pure ({ f with image := some image, state := .ready }, disk)

/-- Drops the picture, in memory and on the disk. -/
def discard (f : Fractal) (store : ImageStore) (disk : Disk) : Fractal × Disk :=
  ({ f with image := none, state := .discarded }, store.discard disk f.id)

end FractalBreeder.Fractal
