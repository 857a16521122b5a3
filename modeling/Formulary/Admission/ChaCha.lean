/-!
# A keyed stream of random numbers

The stream of the ChaCha block function with eight rounds. A key of eight 32-bit words and the
number of a block make a state of sixteen words; four double rounds over it, added to the state,
are the block. The stream is the words of block 0, block 1, and so on, taken in pairs, low word
first. A key may be stretched out of a 64-bit seed by a linear congruential generator with
permuted output.

Numbers are looked up by position, so that every draw is a function of key and position.
-/

namespace Formulary.ChaCha

/-- The eight words of a key. -/
abbrev Key := Vector UInt32 8

/-- The sixteen words of a state or a block. -/
abbrev State := Vector UInt32 16

/-- Rotate a word to the left. -/
def rotateLeft (word : UInt32) (bits : UInt32) : UInt32 :=
  (word <<< bits) ||| (word >>> (32 - bits))

/-- Rotate a word to the right; a rotation by no bits leaves it as it is. -/
def rotateRight (word : UInt32) (bits : UInt32) : UInt32 :=
  (word >>> bits) ||| (word <<< ((32 - bits) % 32))

/-- Mix four words of a state. -/
def quarterRound (state : State) (a b c d : Fin 16) : State :=
  let s := state.set a (state[a] + state[b])
  let s := s.set d (rotateLeft (s[d] ^^^ s[a]) 16)
  let s := s.set c (s[c] + s[d])
  let s := s.set b (rotateLeft (s[b] ^^^ s[c]) 12)
  let s := s.set a (s[a] + s[b])
  let s := s.set d (rotateLeft (s[d] ^^^ s[a]) 8)
  let s := s.set c (s[c] + s[d])
  s.set b (rotateLeft (s[b] ^^^ s[c]) 7)

/-- Mix the columns of a state and then its diagonals. -/
def doubleRound (state : State) : State :=
  let s := quarterRound state 0 4 8 12
  let s := quarterRound s 1 5 9 13
  let s := quarterRound s 2 6 10 14
  let s := quarterRound s 3 7 11 15
  let s := quarterRound s 0 5 10 15
  let s := quarterRound s 1 6 11 12
  let s := quarterRound s 2 7 8 13
  quarterRound s 3 4 9 14

/-- The state that a key and a block number start from. -/
def initialState (key : Key) (block : UInt64) : State :=
  #v[0x61707865, 0x3320646e, 0x79622d32, 0x6b206574,
    key[0], key[1], key[2], key[3], key[4], key[5], key[6], key[7],
    block.toUInt32, (block >>> 32).toUInt32, 0, 0]

/-- The block with the given number. -/
def block (key : Key) (number : UInt64) : State :=
  let start := initialState key number
  let mixed := doubleRound (doubleRound (doubleRound (doubleRound start)))
  Vector.zipWith (· + ·) mixed start

/-- The 64-bit number at a position of the stream: eight of them make a block. -/
def number (key : Key) (position : Nat) : UInt64 :=
  let words := block key (UInt64.ofNat (position / 8))
  let low := words.get ⟨2 * (position % 8), by omega⟩
  let high := words.get ⟨2 * (position % 8) + 1, by omega⟩
  low.toUInt64 ||| (high.toUInt64 <<< 32)

/-- The next state of the generator that stretches a seed. -/
def stretchState (state : UInt64) : UInt64 :=
  state * 6364136223846793005 + 11634580027462260723

/-- The word that the generator puts out in a state. -/
def stretchWord (state : UInt64) : UInt32 :=
  rotateRight (((state >>> 18) ^^^ state) >>> 27).toUInt32 (state >>> 59).toUInt32

/-- The state of the generator after the given number of steps. -/
def stretchStateAfter (seed : UInt64) : Nat → UInt64
  | 0 => seed
  | steps + 1 => stretchState (stretchStateAfter seed steps)

/-- The key stretched out of a seed. -/
def Key.ofSeed (seed : UInt64) : Key :=
  Vector.ofFn fun i => stretchWord (stretchStateAfter seed (i.val + 1))

/-- Fifty-two bits as a number from one up to two, moved to the range from `-10` up to `10`. -/
def inRange (bits : UInt64) : Float :=
  (Float.ofBits ((bits >>> 12) ||| 0x3ff0000000000000) - 1.0) * 20.0 + (-10.0)

/-- The number from `-10` up to `10` at a position of the stream. -/
def value (key : Key) (position : Nat) : Float :=
  inRange (number key position)

/-- The first `count` vectors of `length` numbers each, drawn one after another. -/
def vectors (key : Key) (count length : Nat) : List (List Float) :=
  (List.range count).map fun vector =>
    (List.range length).map fun slot => value key (vector * length + slot)

end Formulary.ChaCha
