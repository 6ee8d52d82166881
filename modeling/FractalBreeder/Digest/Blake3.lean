import FractalBreeder.Number.Square

/-!
The tree hash with 1024-byte chunks and 64-byte blocks, for an output of 32 bytes.
-/
namespace FractalBreeder.Blake3

abbrev Chain := Vector UInt32 8

def firstRow : Vector UInt32 4 := #v[0x6a09e667, 0xbb67ae85, 0x3c6ef372, 0xa54ff53a]

def secondRow : Vector UInt32 4 := #v[0x510e527f, 0x9b05688c, 0x1f83d9ab, 0x5be0cd19]

def start : Chain := firstRow ++ secondRow

def mix (message : UInt32 × UInt32) (q : Quarter) : Quarter :=
  let a := q.a + q.b + message.1
  let d := Square.rotateRight (q.d ^^^ a) 16
  let c := q.c + d
  let b := Square.rotateRight (q.b ^^^ c) 12
  let a := a + b + message.2
  let d := Square.rotateRight (d ^^^ a) 8
  let c := c + d
  let b := Square.rotateRight (b ^^^ c) 7
  ⟨a, b, c, d⟩

/-- The order in which the next round reads the words of the block. -/
def permute (m : Square) : Square :=
  #v[m[2], m[6], m[3], m[10], m[7], m[0], m[4], m[13], m[1], m[11], m[12], m[5], m[9], m[14], m[15], m[8]]

def rounds : Nat → Square → Square → Square
  | 0, _, s => s
  | n + 1, m, s => rounds n (permute m) (s.round fun i => mix (m.pair i))

def compress (chain : Chain) (block : Square) (counter : UInt64) (length flags : UInt32) : Chain :=
  let s : Square :=
    chain ++ firstRow ++ #v[counter.toUInt32, (counter >>> 32).toUInt32, length, flags]
  let s := rounds 7 block s
  Vector.ofFn fun i => s[i.val] ^^^ s[i.val + 8]

/-- The words of up to 64 bytes, low byte first, filled up with zeros. -/
def blockOfBytes (bytes : List UInt8) : Square :=
  let bytes := bytes.toArray
  Vector.ofFn fun i =>
    let byte (k : Nat) : UInt32 := (bytes.getD (4 * i.val + k) 0).toUInt32
    byte 0 ||| byte 1 <<< 8 ||| byte 2 <<< 16 ||| byte 3 <<< 24

def chunkStart : UInt32 := 1
def chunkEnd : UInt32 := 2
def parent : UInt32 := 4
def root : UInt32 := 8

/-- The last compression of a subtree, which the root does with one flag more. -/
structure Node where
  chain : Chain
  block : Square
  counter : UInt64
  length : UInt32
  flags : UInt32

def Node.close (n : Node) (extra : UInt32) : Chain :=
  compress n.chain n.block n.counter n.length (n.flags ||| extra)

/-- A chunk: its blocks are compressed one into the next. -/
def chunk (counter : UInt64) (chain : Chain) (flags : UInt32) (bytes : List UInt8) : Node :=
  if bytes.length ≤ 64 then
    ⟨chain, blockOfBytes bytes, counter, bytes.length.toUInt32, flags ||| chunkEnd⟩
  else
    chunk counter (compress chain (blockOfBytes (bytes.take 64)) counter 64 flags) 0 (bytes.drop 64)
termination_by bytes.length
decreasing_by simp only [List.length_drop]; omega

/-- The bytes of the left subtree: the largest power of two of chunks that leaves some for the
right one. -/
def leftLength (length : Nat) : Nat := 1024 <<< ((length - 1) / 1024).log2

theorem leftLength_bounds {length : Nat} (large : 1024 < length) :
    0 < leftLength length ∧ leftLength length < length := by
  have chunks : (length - 1) / 1024 ≠ 0 := by omega
  have bound := Nat.log2_self_le chunks
  have positive := Nat.two_pow_pos ((length - 1) / 1024).log2
  rw [leftLength, Nat.shiftLeft_eq]
  omega

def tree (counter : UInt64) (bytes : List UInt8) : Node :=
  if large : 1024 < bytes.length then
    have _bounds := leftLength_bounds large
    let size := leftLength bytes.length
    let left := (tree counter (bytes.take size)).close 0
    let right := (tree (counter + (size / 1024).toUInt64) (bytes.drop size)).close 0
    ⟨start, left ++ right, 0, 64, parent⟩
  else chunk counter start chunkStart bytes
termination_by bytes.length
decreasing_by all_goals simp only [List.length_take, List.length_drop]; omega

def hexDigit (n : UInt32) : Char := (Nat.toDigits 16 (n % 16).toNat).headD '0'

/-- The hexadecimal digits of a word, low byte first. -/
def hexOfWord (w : UInt32) : List Char :=
  [w >>> 4, w, w >>> 12, w >>> 8, w >>> 20, w >>> 16, w >>> 28, w >>> 24].map hexDigit

def hex (bytes : List UInt8) : List Char :=
  ((tree 0 bytes).close root).toList.flatMap hexOfWord

end FractalBreeder.Blake3
