import FractalBreeder.Chance.Draws
import FractalBreeder.Chance.Stream

/-!
Endless sources of words, and random choices made from them.
-/
namespace FractalBreeder

/-- Where further words come from. -/
inductive Supply where
  | mixer (state : UInt64)
  | stream (key : Stream.Key) (block : UInt64)

namespace Supply

/-- The next few words, at least one. -/
def next : Supply → List UInt64 × Supply
  | mixer state =>
    let state := state + 0x9e3779b97f4a7c15
    let z := (state ^^^ state >>> 30) * 0xbf58476d1ce4e5b9
    let z := (z ^^^ z >>> 27) * 0x94d049bb133111eb
    ([z ^^^ z >>> 31], mixer state)
  | stream key block => (Stream.words key block, stream key (block + 1))

end Supply

/-- Words at hand, and the supply behind them. -/
structure Source where
  ready : List UInt64
  supply : Supply

namespace Source

def ofSeed (seed : UInt64) : Source := ⟨[], .stream (Stream.keyOfSeed seed) 0⟩

/-- The given words first, then those of a mixer. -/
def ofWords (words : List UInt64) (state : UInt64) : Source := ⟨words, .mixer state⟩

/-- Fetches `count` more portions from the supply. -/
def refill : Nat → Source → Source
  | 0, s => s
  | count + 1, s =>
    let (words, supply) := s.supply.next
    let filled := refill count ⟨[], supply⟩
    ⟨s.ready ++ (words ++ filled.ready), filled.supply⟩

/-- Makes a choice, fetching more words as long as it is starved. -/
def drawWithin {α : Type} (choice : Draws α) : Nat → Source → Except Halt (α × Source)
  | fuel, s =>
    match choice s.ready with
    | .ok (a, left) => .ok (a, ⟨left, s.supply⟩)
    | .error .unusableRange => .error .unusableRange
    | .error .starved =>
      match fuel with
      | 0 => .error .starved
      | fuel + 1 => drawWithin choice fuel (s.refill (s.ready.length / 2 + 1))

/-- Each attempt has at least half as many words again as the one before. -/
def draw {α : Type} (choice : Draws α) (s : Source) : Except Halt (α × Source) :=
  drawWithin choice 60 s

end Source

end FractalBreeder
