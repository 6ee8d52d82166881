/-!
Sixteen words in four rows of four, and rounds that mix first its columns and then its diagonals.
A round is given by what it does to one word of each row.
-/
namespace FractalBreeder

abbrev Square := Vector UInt32 16

/-- One word of each row, from the first row to the last. -/
structure Quarter where
  a : UInt32
  b : UInt32
  c : UInt32
  d : UInt32

namespace Square

def rotateRight (x : UInt32) (n : UInt32) : UInt32 := x >>> n ||| x <<< ((32 - n) % 32)

/-- Changes the words at four places. -/
def modify (mix : Quarter → Quarter) (a b c d : Fin 16) (s : Square) : Square :=
  let mixed := mix ⟨s[a], s[b], s[c], s[d]⟩
  (((s.set a mixed.a).set b mixed.b).set c mixed.c).set d mixed.d

/-- Mixes the four columns and then the four diagonals; `mix` is told which of the eight it has. -/
def round (mix : Fin 8 → Quarter → Quarter) (s : Square) : Square :=
  let s := modify (mix 0) 0 4 8 12 s
  let s := modify (mix 1) 1 5 9 13 s
  let s := modify (mix 2) 2 6 10 14 s
  let s := modify (mix 3) 3 7 11 15 s
  let s := modify (mix 4) 0 5 10 15 s
  let s := modify (mix 5) 1 6 11 12 s
  let s := modify (mix 6) 2 7 8 13 s
  modify (mix 7) 3 4 9 14 s

/-- Two neighbours: the first two words, the next two, and so on. -/
def pair (s : Square) (i : Fin 8) : UInt32 × UInt32 := (s[2 * i.val], s[2 * i.val + 1])

end Square

end FractalBreeder
