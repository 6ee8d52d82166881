import FractalBreeder.Population.Picks

/-!
Generations that were shown, with the one on show in the middle: those before it and those after
it are stacks whose nearest generation comes first.
-/
namespace FractalBreeder

structure Generation (α : Type) where
  number : UInt32
  members : List α

structure History (α : Type) where
  number : UInt32 := 0
  current : List α := []
  picks : Picks := .none
  past : List (Generation α) := []
  future : List (Generation α) := []

namespace History

variable {α : Type}

/-- The generation on show. -/
def shown (h : History α) : Generation α := ⟨h.number, h.current⟩

/-- The number of the last generation that can be reached by going forward. -/
def total (h : History α) : UInt32 := h.number + UInt32.ofNat h.future.length

def canGoBack (h : History α) : Bool := !h.past.isEmpty

def canGoForward (h : History α) : Bool := !h.future.isEmpty

/-- The picked members, in the order of their slots. -/
def picked (h : History α) : List α := h.picks.slots.filterMap (h.current[·]?)

/-- Shows a new generation after the current one; what came after that is dropped. -/
def advance (h : History α) (members : List α) : History α :=
  { number := h.number + 1
    current := members
    picks := .none
    past := if h.current.isEmpty then h.past else h.shown :: h.past
    future := [] }

def back? (h : History α) : Option (History α) :=
  match h.past with
  | [] => none
  | g :: past =>
    some { number := g.number, current := g.members, past, future := h.shown :: h.future }

def forward? (h : History α) : Option (History α) :=
  match h.future with
  | [] => none
  | g :: future =>
    some { number := g.number, current := g.members, past := h.shown :: h.past, future }

end History

end FractalBreeder
