import FractalBreeder.Number.Square

/-!
The stream cipher with twelve rounds, used as an endless supply of words that a 64-bit seed
determines.
-/
namespace FractalBreeder.Stream

abbrev Key := Vector UInt32 8

def rotateLeft (x : UInt32) (n : UInt32) : UInt32 := x <<< n ||| x >>> (32 - n)

/-- Eight steps of a linear congruential generator, each scrambled to 32 bits. -/
def keyOfSeed (seed : UInt64) : Key :=
  let rec expand : Nat → UInt64 → List UInt32
    | 0, _ => []
    | n + 1, s =>
      let s := s * 6364136223846793005 + 11634580027462260723
      let x := ((s >>> 18 ^^^ s) >>> 27).toUInt32
      Square.rotateRight x (s >>> 59).toUInt32 :: expand n s
  let words := (expand 8 seed).toArray
  Vector.ofFn fun i => words.getD i 0

def mix (q : Quarter) : Quarter :=
  let a := q.a + q.b
  let d := rotateLeft (q.d ^^^ a) 16
  let c := q.c + d
  let b := rotateLeft (q.b ^^^ c) 12
  let a := a + b
  let d := rotateLeft (d ^^^ a) 8
  let c := c + d
  let b := rotateLeft (b ^^^ c) 7
  ⟨a, b, c, d⟩

def firstRow : Vector UInt32 4 := #v[0x61707865, 0x3320646e, 0x79622d32, 0x6b206574]

/-- A fixed row, the key, and the number of the block with two zeros. -/
def initial (key : Key) (block : UInt64) : Square :=
  firstRow ++ key ++ #v[block.toUInt32, (block >>> 32).toUInt32, 0, 0]

/-- Twelve rounds are six over the columns and six over the diagonals. -/
def output (key : Key) (block : UInt64) : Square :=
  let start := initial key block
  (Nat.repeat (Square.round fun _ => mix) 6 start).zipWith (· + ·) start

/-- The eight 64-bit words of a block; the low half of a word comes first. -/
def words (key : Key) (block : UInt64) : List UInt64 :=
  let out := output key block
  (List.finRange 8).map fun i =>
    let (low, high) := out.pair i
    low.toUInt64 ||| high.toUInt64 <<< 32

end FractalBreeder.Stream
