/-!
Random choices as consumers of a finite list of 64-bit words. A choice takes words from the front
and never looks at those behind, so a longer list changes nothing but what is left over; a choice
that runs out of words is starved. Loops that draw again are recursions on the list.
-/
namespace FractalBreeder

inductive Halt where
  | starved
  | unusableRange
  deriving DecidableEq, Repr

/-- A random choice: a value and the words left over, or the reason why there is none. -/
abbrev Draws := StateT (List UInt64) (Except Halt)

namespace Draws

def word : Draws UInt64
  | [] => .error .starved
  | w :: ws => .ok (w, ws)

/-- A multiple of `2 ^ -53` that is at least 0 and below 1. -/
def unit : Draws Float := do
  let w ← word
  pure ((w >>> 11).toFloat * Float.ofBits 0x3ca0000000000000)

/-- The largest low half of a product that keeps the choice among `range` values even. -/
def zone (range : Nat) : Nat := range <<< (63 - range.log2) - 1

/-- The high half of word times range, for the first word whose low half is in the zone. -/
def firstIndex (range : Nat) : Draws Nat
  | [] => .error .starved
  | w :: ws =>
    let product := w.toNat * range
    if product % UInt64.size ≤ zone range then .ok (product / UInt64.size, ws) else firstIndex range ws

/-- A natural number below `range`, each equally likely. -/
def index (range : Nat) : Draws Nat :=
  if range = 0 then fun _ => .error .unusableRange else firstIndex range

/-- The number between 1 and 2 whose fraction is the upper 52 bits of the word, less 1. -/
def fraction (w : UInt64) : Float := Float.ofBits (w >>> 12 ||| 0x3ff0000000000000) - 1

def firstBetween (low high : Float) : Draws Float
  | [] => .error .starved
  | w :: ws =>
    let value := fraction w * (high - low) + low
    if value < high then .ok (value, ws) else firstBetween low high ws

/-- A range is usable when it is not empty and its length is finite. -/
def usable (low high : Float) : Bool := low < high && (high - low).isFinite

/-- A number from `low` up to, but not including, `high`. -/
def between (low high : Float) : Draws Float :=
  if usable low high then firstBetween low high else fun _ => .error .unusableRange

end Draws

end FractalBreeder
