import Arbor.Chance.Source
import Arbor.Chance.Keystream

/-!
# Seeded draws

Uniform draws from the keystream of a seed.  An empty range answers its lower end and takes no
word; any other range takes exactly one.  A range with a NaN at an end, or one too wide for its
width to be finite, has no draw: `draw?` answers nothing.
-/

namespace Arbor.Chance

/-- The largest value of `fraction`: the largest single below one on its grid of `2^-23`. -/
def largestFraction : Float32 := Float32.ofBits 0x3F7FFFFE

/-- A number in `[0, 1)` from the upper 23 bits of a word. -/
def fraction (word : UInt32) : Float32 :=
  Float32.ofBits ((word >>> 9) ||| 0x3F800000) - 1

/-- The largest width at or below `scale` whose largest draw does not pass `hi`, found by going
down one single-precision number at a time, `fuel` times at most. -/
def fitScale (lo hi : Float32) : Nat → Float32 → Float32
  | 0, scale => scale
  | fuel + 1, scale =>
    if hi < scale * largestFraction + lo then
      fitScale lo hi fuel (Float32.ofBits (scale.toBits - 1))
    else scale

/-- The width by which fractions are multiplied to fill a range from `lo` up to `hi`.  It starts
within a few units in the last place of one that fits; the bound on the descent is the number of
positive singles. -/
def rangeScale (lo hi : Float32) : Float32 :=
  fitScale lo hi 0x7F800000 ((hi - lo) / largestFraction)

/-- A source of draws that a seed decides. -/
structure Seeded where
  stream : Keystream

namespace Seeded

/-- The source of a seed, before any draw. -/
def ofSeed (seed : UInt64) : Seeded := ⟨.ofSeed seed⟩

/-- A draw from `[lo, hi]`, if the range has one. -/
def draw? (s : Seeded) (lo hi : Float32) : Option (Float32 × Seeded) :=
  if hi ≤ lo then some (lo, s)
  else if lo.isNaN || hi.isNaN then none
  else if !((hi - lo) / largestFraction).isFinite then none
  else some (fraction s.stream.word * rangeScale lo hi + lo, ⟨s.stream.advance⟩)

/-- The draws of a tree are from finite ranges, so each has an answer; elsewhere the lower end
stands in. -/
instance : Source Seeded where
  uniform s lo hi := (s.draw? lo hi).getD (lo, s)

end Seeded

end Arbor.Chance
