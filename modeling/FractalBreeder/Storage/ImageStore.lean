import FractalBreeder.Storage.Disk
import FractalBreeder.Storage.Image

/-!
Where renderers leave their pictures: each fractal has one file, named by its identity, until the
picture is taken over into memory.
-/
namespace FractalBreeder

structure ImageStore where
  dir : String
  extension : String
  deriving DecidableEq, Repr

namespace ImageStore

/-- A path inside a directory; a path from the root replaces the directory. -/
def join (dir name : String) : String :=
  if name.toList.head? = some '/' then name
  else if dir.isEmpty || Disk.endsWithSlash dir then dir ++ name
  else dir ++ "/" ++ name

/-- The path of a picture without its extension. -/
def stem (s : ImageStore) (identity : String) : String := join s.dir identity

def path (s : ImageStore) (identity : String) : String :=
  join s.dir (identity ++ "." ++ s.extension)

def ensureDir (s : ImageStore) (d : Disk) : Disk × Except IoFault Unit := d.makeDirectories s.dir

def size (s : ImageStore) (d : Disk) (identity : String) : Except IoFault Nat :=
  d.size (s.path identity)

/-- Removes the file of a picture, if there is one. -/
def discard (s : ImageStore) (d : Disk) (identity : String) : Disk :=
  (d.remove (s.path identity)).toOption.getD d

/-- Reads a picture into memory and removes its file. -/
def load (s : ImageStore) (d : Disk) (identity : String) : Except IoFault (Image × Disk) := do
  let bytes ← d.read (s.path identity)
  .ok ({ identity, extension := s.extension, bytes }, s.discard d identity)

end ImageStore

end FractalBreeder
