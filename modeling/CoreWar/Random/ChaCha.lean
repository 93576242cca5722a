import CoreWar.Random.Source

/-!
# ChaCha streams

The stream of the ChaCha cipher with twelve rounds, as a source of words.  The
key is eight words; the blocks are numbered with sixty-four bits from zero, and
the nonce is zero.  A word of sixty-four bits is made of two words of the
stream, the lower half first.

A key is grown from a seed by a linear congruence of sixty-four bits, whose
state is folded and rotated into one word at a time.
-/

namespace CoreWar
namespace Random

/-- The sixteen words of a block. -/
abbrev Block := Vector UInt32 16

namespace Block

/-- Rotates a word to the left. -/
def rotate (w n : UInt32) : UInt32 := (w <<< n) ||| (w >>> (32 - n))

/-- Mixes four words of a block. -/
def mix (b : Block) (i j k l : Fin 16) : Block :=
  let b := b.set i (b[i] + b[j])
  let b := b.set l (rotate (b[l] ^^^ b[i]) 16)
  let b := b.set k (b[k] + b[l])
  let b := b.set j (rotate (b[j] ^^^ b[k]) 12)
  let b := b.set i (b[i] + b[j])
  let b := b.set l (rotate (b[l] ^^^ b[i]) 8)
  let b := b.set k (b[k] + b[l])
  b.set j (rotate (b[j] ^^^ b[k]) 7)

/-- One round over the columns and one over the diagonals. -/
def doubleRound (b : Block) : Block :=
  let b := b.mix 0 4 8 12
  let b := b.mix 1 5 9 13
  let b := b.mix 2 6 10 14
  let b := b.mix 3 7 11 15
  let b := b.mix 0 5 10 15
  let b := b.mix 1 6 11 12
  let b := b.mix 2 7 8 13
  b.mix 3 4 9 14

/-- The constants in front of every block. -/
def constants : Vector UInt32 4 := #v[0x61707865, 0x3320646e, 0x79622d32, 0x6b206574]

/-- The number of a block and the nonce. -/
def tail (number : UInt64) : Vector UInt32 4 :=
  #v[number.toUInt32, (number >>> 32).toUInt32, 0, 0]

/-- The block before any round: the constants, the key, the number of the block
and the nonce. -/
def initial (key : Vector UInt32 8) (number : UInt64) : Block := constants ++ key ++ tail number

/-- A block of the stream: twelve rounds, added to where they started. -/
def stream (key : Vector UInt32 8) (number : UInt64) : Block :=
  let b := initial key number
  Vector.zipWith (· + ·) (Nat.repeat doubleRound 6 b) b

end Block

/-- A place in a stream. -/
structure ChaCha where
  key : Vector UInt32 8
  /-- The number of the next block. -/
  number : UInt64 := 0
  /-- The words of the current block that are left. -/
  left : List UInt32 := []

namespace ChaCha

/-- The next word of the stream. -/
def next (c : ChaCha) : UInt32 × ChaCha :=
  match c.left with
  | w :: ws => (w, { c with left := ws })
  | [] =>
    let b := Block.stream c.key c.number
    (b.head, ⟨c.key, c.number + 1, b.toList.tail⟩)

/-- The state that follows in the growth of a key. -/
def grow (state : UInt64) : UInt64 := state * 6364136223846793005 + 11634580027462260723

/-- The word of a state. -/
def keyWord (state : UInt64) : UInt32 :=
  let w := (((state >>> 18) ^^^ state) >>> 27).toUInt32
  let n := (state >>> 59).toUInt32
  (w >>> n) ||| (w <<< ((32 - n) % 32))

/-- The key that grows from a seed. -/
def keyOf (seed : UInt64) : Vector UInt32 8 :=
  Vector.ofFn fun i => keyWord (Nat.repeat grow (i.val + 1) seed)

/-- The stream of a seed. -/
def ofSeed (seed : UInt64) : ChaCha := { key := keyOf seed }

end ChaCha

instance : Source ChaCha where
  word32 := ChaCha.next
  word64 c :=
    let (low, c) := c.next
    let (high, c) := c.next
    (low.toUInt64 ||| (high.toUInt64 <<< 32), c)

end Random
end CoreWar
