/-!
# The keystream

An endless sequence of 32-bit words, a function of a 64-bit seed: the seed is stretched to a
256-bit key by a small congruential generator, and the words are the blocks of the ChaCha cipher
with twelve rounds, a zero nonce and a block counter from zero.  `Keystream` walks the sequence
and holds on to the current block; the field `block_eq` says that it is the block that its
position calls for, so a position alone decides the next word.
-/

namespace Arbor.Chance

/-- Sixteen words: the state and the output of the cipher. -/
abbrev Block := Vector UInt32 16

/-- A word with its bits moved to the left, those pushed out coming in on the right. -/
@[inline] def rotate (w : UInt32) (n : UInt32) : UInt32 :=
  (w <<< n) ||| (w >>> (32 - n))

/-- The mixing step of the cipher on four of the words. -/
@[inline] def quarterRound (v : Block) (a b c d : Fin 16) : Block :=
  let xa := v[a] + v[b]
  let xd := rotate (v[d] ^^^ xa) 16
  let xc := v[c] + xd
  let xb := rotate (v[b] ^^^ xc) 12
  let xa := xa + xb
  let xd := rotate (xd ^^^ xa) 8
  let xc := xc + xd
  let xb := rotate (xb ^^^ xc) 7
  (((v.set a xa).set b xb).set c xc).set d xd

/-- Mixing along the four columns of the words, then along the four diagonals. -/
def doubleRound (v : Block) : Block :=
  let v := quarterRound v 0 4 8 12
  let v := quarterRound v 1 5 9 13
  let v := quarterRound v 2 6 10 14
  let v := quarterRound v 3 7 11 15
  let v := quarterRound v 0 5 10 15
  let v := quarterRound v 1 6 11 12
  let v := quarterRound v 2 7 8 13
  quarterRound v 3 4 9 14

/-- The eight words of a key. -/
abbrev Key := Vector UInt32 8

/-- The state before the first round: four constant words, the key, the counter of the block in
two words, and a zero nonce. -/
def startBlock (key : Key) (counter : UInt64) : Block :=
  #v[0x61707865, 0x3320646E, 0x79622D32, 0x6B206574,
    key[0], key[1], key[2], key[3], key[4], key[5], key[6], key[7],
    counter.toUInt32, (counter >>> 32).toUInt32, 0, 0]

/-- The output block of a counter: twelve rounds, and the starting state added. -/
def block (key : Key) (counter : UInt64) : Block :=
  let start := startBlock key counter
  let mixed := doubleRound (doubleRound (doubleRound (doubleRound (doubleRound
    (doubleRound start)))))
  mixed.zipWith (· + ·) start

/-- One step of the generator that stretches a seed. -/
def stretch (state : UInt64) : UInt64 :=
  state * 6364136223846793005 + 11634580027462260723

/-- The word of a state of that generator: its high bits folded, rotated by the highest five. -/
def stretchedWord (state : UInt64) : UInt32 :=
  let folded := (((state >>> 18) ^^^ state) >>> 27).toUInt32
  let turn := (state >>> 59).toUInt32
  (folded >>> turn) ||| (folded <<< ((32 - turn) &&& 31))

/-- The key of a seed: the words of the eight states that follow it. -/
def Key.ofSeed (seed : UInt64) : Key :=
  let s₀ := stretch seed
  let s₁ := stretch s₀
  let s₂ := stretch s₁
  let s₃ := stretch s₂
  let s₄ := stretch s₃
  let s₅ := stretch s₄
  let s₆ := stretch s₅
  let s₇ := stretch s₆
  #v[stretchedWord s₀, stretchedWord s₁, stretchedWord s₂, stretchedWord s₃,
    stretchedWord s₄, stretchedWord s₅, stretchedWord s₆, stretchedWord s₇]

/-- A place in the sequence of a key, with the block it lies in. -/
structure Keystream where
  key : Key
  position : Nat
  current : Block
  block_eq : current = block key (position / 16).toUInt64

namespace Keystream

/-- The start of the sequence of a seed. -/
def ofSeed (seed : UInt64) : Keystream :=
  let key := Key.ofSeed seed
  ⟨key, 0, block key 0, rfl⟩

/-- The word at the current place. -/
def word (s : Keystream) : UInt32 :=
  s.current[s.position % 16]

/-- The next place.  Only the first word of a block asks for a new one. -/
def advance (s : Keystream) : Keystream :=
  if h : (s.position + 1) % 16 = 0 then
    ⟨s.key, s.position + 1, block s.key ((s.position + 1) / 16).toUInt64, rfl⟩
  else
    ⟨s.key, s.position + 1, s.current, by
      rw [s.block_eq, show (s.position + 1) / 16 = s.position / 16 by omega]⟩

end Keystream

end Arbor.Chance
