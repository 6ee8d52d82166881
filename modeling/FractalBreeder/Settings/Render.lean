/-!
Settings of the external renderer and of the filter for nearly empty pictures.
-/
namespace FractalBreeder

structure RenderSettings where
  rendererPath : String := "C-Genetics/aesthetics"
  imageDir : String := "images"
  extension : String := "png"
  width : UInt32 := 400
  height : UInt32 := 300
  /-- Points plotted for one picture. -/
  points : UInt64 := 100000
  /-- A shorter file is a sparse picture. -/
  sparseThresholdKb : UInt64 := 30
  /-- Mutations tried on a sparse fractal before it is bred again. -/
  maxSparseRetries : UInt32 := 15
  /-- How often a fractal is bred again before a sparse picture is accepted. -/
  maxRegenerations : UInt32 := 4
  /-- Renders tried again after a failure. -/
  ioRetries : UInt32 := 3
  timeoutSecs : UInt64 := 60
  pollIntervalMs : UInt64 := 20
  deriving DecidableEq, Repr

inductive RenderFault where
  | size
  | extension
  | timeout
  | pollInterval
  deriving DecidableEq, Repr

namespace RenderFault

def text : RenderFault → String
  | size => "Render size must be positive"
  | extension => "Extension must be a bare file extension such as 'png'"
  | timeout => "Renderer timeout must be positive"
  | pollInterval => "Poll interval must be positive"

end RenderFault

namespace RenderSettings

def isBareExtension (extension : String) : Bool :=
  !extension.isEmpty && extension.toList.all fun c => c != '.' && c != '/' && c != '\\'

def fault? (s : RenderSettings) : Option RenderFault :=
  if s.width = 0 ∨ s.height = 0 then some .size
  else if !isBareExtension s.extension then some .extension
  else if s.timeoutSecs = 0 then some .timeout
  else if s.pollIntervalMs = 0 then some .pollInterval
  else none

/-- The length from which on a picture is dense, in 64-bit words. -/
def sparseThreshold (s : RenderSettings) : UInt64 := s.sparseThresholdKb * 1024

/-- How often a renderer is called at most for one picture, in 32-bit words. -/
def attempts (s : RenderSettings) : UInt32 := s.ioRetries + 1

def timeoutMs (s : RenderSettings) : Nat := s.timeoutSecs.toNat * 1000

end RenderSettings

end FractalBreeder
