/-!
One flag per slot that tells whether its picture can be shown.
-/
namespace FractalBreeder

structure Readiness where
  flags : List Bool
  deriving DecidableEq, Repr

namespace Readiness

def ofSize (size : Nat) : Readiness := ⟨List.replicate size false⟩

def size (r : Readiness) : Nat := r.flags.length

/-- A slot out of range is ignored. -/
def mark (r : Readiness) (slot : Nat) (ready : Bool) : Readiness := ⟨r.flags.set slot ready⟩

/-- A slot out of range is never ready. -/
def isReady (r : Readiness) (slot : Nat) : Bool := r.flags.getD slot false

def readyCount (r : Readiness) : Nat := r.flags.count true

def clear (r : Readiness) : Readiness := ofSize r.size

end Readiness

end FractalBreeder
