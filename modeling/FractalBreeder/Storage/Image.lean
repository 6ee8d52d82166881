import FractalBreeder.Text.Quoted

/-!
A rendered picture in memory.
-/
namespace FractalBreeder

structure Image where
  identity : String
  extension : String
  bytes : ByteArray

namespace Image

def size (image : Image) : Nat := image.bytes.size

/-- A short description, without the bytes. -/
def description (image : Image) : String :=
  "Artifact \x7b identity: " ++ Text.quoted image.identity ++ ", extension: " ++
    Text.quoted image.extension ++ ", len: " ++ toString image.size ++ " \x7d"

end Image

end FractalBreeder
