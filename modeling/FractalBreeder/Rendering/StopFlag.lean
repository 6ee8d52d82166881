import FractalBreeder.Failure

/-!
A flag that asks a job to stop. Once raised it stays raised.
-/
namespace FractalBreeder

structure StopFlag where
  raised : Bool := false
  deriving DecidableEq, Repr

namespace StopFlag

def raise (_ : StopFlag) : StopFlag := ⟨true⟩

def check (flag : StopFlag) : Except Failure Unit :=
  if flag.raised then .error .cancelled else .ok ()

end StopFlag

end FractalBreeder
