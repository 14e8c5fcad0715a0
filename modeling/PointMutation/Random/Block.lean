/-!
# A stream of random words

Words of 32 bits come from the ChaCha function with twelve rounds, whose input is a key of eight
words and the number of the block. A key is made from a seed by a linear congruential generator
whose output is permuted.
-/

namespace PointMutation.Random

/-- Sixteen words. -/
structure Block where
  (a0 a1 a2 a3 b0 b1 b2 b3 c0 c1 c2 c3 d0 d1 d2 d3 : UInt32)
  deriving DecidableEq, Repr

/-- Rotates a word to the left by a number of bits between 1 and 31. -/
def rotateLeft (x n : UInt32) : UInt32 := (x <<< n) ||| (x >>> (32 - n))

/-- Mixes four words. -/
def quarter (a b c d : UInt32) : UInt32 × UInt32 × UInt32 × UInt32 :=
  let a := a + b
  let d := rotateLeft (d ^^^ a) 16
  let c := c + d
  let b := rotateLeft (b ^^^ c) 12
  let a := a + b
  let d := rotateLeft (d ^^^ a) 8
  let c := c + d
  let b := rotateLeft (b ^^^ c) 7
  (a, b, c, d)

namespace Block

/-- Mixes the columns and then the diagonals. -/
def doubleRound (x : Block) : Block :=
  let (a0, b0, c0, d0) := quarter x.a0 x.b0 x.c0 x.d0
  let (a1, b1, c1, d1) := quarter x.a1 x.b1 x.c1 x.d1
  let (a2, b2, c2, d2) := quarter x.a2 x.b2 x.c2 x.d2
  let (a3, b3, c3, d3) := quarter x.a3 x.b3 x.c3 x.d3
  let (a0, b1, c2, d3) := quarter a0 b1 c2 d3
  let (a1, b2, c3, d0) := quarter a1 b2 c3 d0
  let (a2, b3, c0, d1) := quarter a2 b3 c0 d1
  let (a3, b0, c1, d2) := quarter a3 b0 c1 d2
  ⟨a0, a1, a2, a3, b0, b1, b2, b3, c0, c1, c2, c3, d0, d1, d2, d3⟩

/-- Several double rounds. -/
def doubleRounds : Nat → Block → Block
  | 0, x => x
  | n + 1, x => doubleRounds n (doubleRound x)

/-- Adds word by word. -/
def add (x y : Block) : Block :=
  ⟨x.a0 + y.a0, x.a1 + y.a1, x.a2 + y.a2, x.a3 + y.a3, x.b0 + y.b0, x.b1 + y.b1, x.b2 + y.b2,
    x.b3 + y.b3, x.c0 + y.c0, x.c1 + y.c1, x.c2 + y.c2, x.c3 + y.c3, x.d0 + y.d0, x.d1 + y.d1,
    x.d2 + y.d2, x.d3 + y.d3⟩

def words (x : Block) : List UInt32 :=
  [x.a0, x.a1, x.a2, x.a3, x.b0, x.b1, x.b2, x.b3, x.c0, x.c1, x.c2, x.c3, x.d0, x.d1, x.d2, x.d3]

theorem length_words (x : Block) : x.words.length = 16 := rfl

end Block

/-- A key of eight words. -/
structure Key where
  (k0 k1 k2 k3 k4 k5 k6 k7 : UInt32)
  deriving DecidableEq, Repr

/-- The words of the block with a number. -/
def Key.block (k : Key) (number : UInt64) : Block :=
  let x : Block :=
    ⟨0x61707865, 0x3320646e, 0x79622d32, 0x6b206574, k.k0, k.k1, k.k2, k.k3, k.k4, k.k5, k.k6,
      k.k7, number.toUInt32, (number >>> 32).toUInt32, 0, 0⟩
  (Block.doubleRounds 6 x).add x

/-! ## Keys -/

/-- One step of the generator that expands a seed. -/
def seedStep (s : UInt64) : UInt64 := s * 6364136223846793005 + 11634580027462260723

/-- The word that a state of that generator gives. -/
def seedWord (s : UInt64) : UInt32 :=
  let x := (((s >>> 18) ^^^ s) >>> 27).toUInt32
  let r := (s >>> 59).toUInt32
  if r = 0 then x else rotateLeft x (32 - r)

/-- The states behind a seed, one after the other. -/
def seedStates : Nat → UInt64 → List UInt64
  | 0, _ => []
  | n + 1, s => seedStep s :: seedStates n (seedStep s)

/-- The key that is made from a seed. -/
def Key.ofSeed (seed : UInt64) : Key :=
  match (seedStates 8 seed).map seedWord with
  | [k0, k1, k2, k3, k4, k5, k6, k7] => ⟨k0, k1, k2, k3, k4, k5, k6, k7⟩
  | _ => ⟨0, 0, 0, 0, 0, 0, 0, 0⟩

end PointMutation.Random
