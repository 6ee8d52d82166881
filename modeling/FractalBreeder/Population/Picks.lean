/-!
The picks of a user: a set of slots of the current generation, one bit for each.
-/
namespace FractalBreeder

/-- The number of fractals in a generation, three rows of three. -/
def generationSize : Nat := 9

structure Picks where
  bits : UInt16
  deriving DecidableEq, Repr

namespace Picks

def none : Picks := ⟨0⟩

def mask (slot : Nat) : UInt16 := 1 <<< UInt16.ofNat slot

/-- A slot out of range is ignored. -/
def set (p : Picks) (slot : Nat) (picked : Bool) : Picks :=
  if generationSize ≤ slot then p
  else if picked then ⟨p.bits ||| mask slot⟩
  else ⟨p.bits &&& ~~~mask slot⟩

def contains (p : Picks) (slot : Nat) : Bool :=
  slot < generationSize && p.bits &&& mask slot != 0

def toggle (p : Picks) (slot : Nat) : Picks := p.set slot (!p.contains slot)

/-- The picked slots in ascending order. -/
def slots (p : Picks) : List Nat := (List.range generationSize).filter p.contains

/-- Whether no bit is set, those beyond the last slot included. -/
def isEmpty (p : Picks) : Bool := p.bits == 0

def ofSlots (slots : List Nat) : Picks := slots.foldl (fun p slot => p.set slot true) none

/-- One flag per slot; flags beyond the last slot are ignored. -/
def ofFlags (flags : List Bool) : Picks :=
  ofSlots ((flags.zipIdx.filter (·.1)).map (·.2))

end Picks

end FractalBreeder
