import FractalBreeder.Failure

/-!
What is asked of a renderer, and what may come of it.
-/
namespace FractalBreeder

/-- Everything a renderer needs for one picture. -/
structure Request where
  identity : String
  /-- The output path without its extension. -/
  stem : String
  /-- The file that the renderer is to leave behind. -/
  output : String
  /-- One text for each axis. -/
  arguments : List String
  deriving DecidableEq, Repr

/-- How a call ends: with a file at the output or without, and with success or a failure, unless
the call takes its job down. -/
inductive Reply where
  | returned (left : Option ByteArray) (result : Except Failure Unit)
  | crashed

/-- A reply, given at once or not before the job is asked to stop. -/
structure Answer where
  held : Bool
  reply : Reply

/-- A renderer that answers by the slot, the number of calls before for this slot, and the
request. -/
abbrev Renderer := (slot calls : Nat) → Request → Answer

inductive RenderEvent where
  | started (slot : Nat) (identity : String)
  | ready (slot : Nat) (identity : String) (attempts regenerations : UInt32)
  | failed (slot : Nat) (identity reason : String)
  | cancelled (slot : Nat)
  deriving DecidableEq, Repr

namespace RenderEvent

def slot : RenderEvent → Nat
  | started slot _ => slot
  | ready slot _ _ _ => slot
  | failed slot _ _ => slot
  | cancelled slot => slot

/-- Whether this is the last event of its job. -/
def isTerminal : RenderEvent → Bool
  | started _ _ => false
  | _ => true

end RenderEvent

end FractalBreeder
