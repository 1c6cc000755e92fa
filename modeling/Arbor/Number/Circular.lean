import Arbor.Number.Single

/-!
# Sine and cosine

Both functions reduce the angle to a quadrant and a rest in `[-π/4, π/4]`, in double precision,
and evaluate a short polynomial at the rest; rounding to single precision comes last, once.
`Reduced` is what the two reductions agree on: a moderate angle is reduced by a multiple of `π/2`
held in two parts, so that no bit of the difference is lost, and a large one by the bits of `4/π`
that its exponent selects.
-/

namespace Arbor.Number

/-- An angle up to whole turns: the number of quarter turns, and the rest in radians. -/
structure Reduced where
  quadrant : Int
  rest : Float

namespace Reduced

/-- The whole part of a double below `2^64`, toward zero. -/
def wholePart (x : Float) : Int :=
  if x < 0 then -((-x).toUInt64.toNat : Int) else x.toUInt64.toNat

/-- An integer below `2^53` in size as a double. -/
def ofWhole (n : Int) : Float :=
  if n < 0 then -(n.natAbs.toUInt64.toFloat) else n.natAbs.toUInt64.toFloat

/-- Reduction of an angle below 120 in size.  The quadrant is read off the product with `2^24`
times `2/π`, rounded half up.  `π/2` is split into 46 leading bits, of which a small multiple is
exact, and the rest. -/
def moderate (y : Float) : Reduced :=
  let quadrant := (wholePart (y * Float.ofBits 0x41645F306DC9C883) + 0x800000).shiftRight 24
  let turns := ofWhole quadrant
  let leading := y - turns * Float.ofBits 0x3FF921FB54442D00
  ⟨quadrant, leading - turns * Float.ofBits 0x3CF8000000000000⟩

/-- The bits of `4/π`, 32 at a time, each entry eight bits on from the one before it. -/
def inverseBits : Array UInt64 :=
  #[0xA2,       0xA2F9,     0xA2F983,   0xA2F9836E,
    0xF9836E4E, 0x836E4E44, 0x6E4E4415, 0x4E441529,
    0x441529FC, 0x1529FC27, 0x29FC2757, 0xFC2757D1,
    0x2757D1F5, 0x57D1F534, 0xD1F534DD, 0xF534DDC0,
    0x34DDC0DB, 0xDDC0DB62, 0xC0DB6295, 0xDB629599,
    0x6295993C, 0x95993C43, 0x993C4390, 0x3C439041]

/-- The rest of a 64-bit binary fraction of a half turn, where the pattern is read as signed. -/
def ofFraction (rest : UInt64) : Float :=
  let size := if rest < 0x8000000000000000 then rest.toFloat else -((0 - rest).toFloat)
  size * Float.ofBits 0x3C1921FB54442D18

/-- Reduction of the size of a finite angle of at least 120, given by its pattern.  The product
of the significand with the 96 bits of `4/π` that matter for its exponent is kept modulo a whole
turn; the two leading bits are the quadrant. -/
def large (pattern : UInt32) : Reduced :=
  let bits := pattern &&& 0x7FFFFFFF
  let start := ((bits >>> 26) &&& 15).toNat
  let shift := (bits >>> 23) &&& 7
  let significand := (((bits &&& 0xFFFFFF) ||| 0x800000) <<< shift).toUInt64
  let high := (significand * inverseBits.getD start 0) <<< 32
  let middle := significand * inverseBits.getD (start + 4) 0
  let low := (significand * inverseBits.getD (start + 8) 0) >>> 32
  let product := (low ||| high) + middle
  let quadrant := (product + 0x2000000000000000) >>> 62
  ⟨quadrant.toNat, ofFraction (product - (quadrant <<< 62))⟩

end Reduced

/-- The sine of a reduced rest, odd in it. -/
def sineRest (x : Float) : Float :=
  let square := x * x
  let cube := x * square
  let tail := Float.ofBits 0x3F81107605230BC4 + square * Float.ofBits 0xBF2994EB3774CF24
  (x + cube * Float.ofBits 0xBFC555545995A603) + (cube * square) * tail

/-- The cosine of a reduced rest, even in it. -/
def cosineRest (x : Float) : Float :=
  let square := x * x
  let fourth := square * square
  let tail := Float.ofBits 0xBF56C087E89A359D + square * Float.ofBits 0x3EF99343027BF8C3
  let head := Float.ofBits 0x3FF0000000000000 + square * Float.ofBits 0xBFDFFFFFFD0C621C
  (head + fourth * Float.ofBits 0x3FA55553E1068F19) + (fourth * square) * tail

/-- The sine `quarters` quarter turns on from a reduced rest. -/
def sineAt (quarters : Int) (rest : Float) : Float32 :=
  narrow <| match quarters % 4 with
    | 0 => sineRest rest
    | 1 => cosineRest rest
    | 2 => sineRest (-rest)
    | _ => -cosineRest rest

/-- The pattern of a single without its sign. -/
def sizeBits (y : Float32) : UInt32 := y.toBits &&& 0x7FFFFFFF

/-- The sine of an angle in radians.  Angles below `2^-12` are their own sine, angles below
three quarters need no reduction, and an infinite one has no sine. -/
def sin (y : Float32) : Float32 :=
  let size := sizeBits y
  if size < 0x39800000 then y
  else if size < 0x3F400000 then sineAt 0 (widen y)
  else if size < 0x42F00000 then
    let r := Reduced.moderate (widen y)
    sineAt r.quadrant r.rest
  else if size < 0x7F800000 then
    let r := Reduced.large y.toBits
    if y.toBits < signBit then sineAt r.quadrant r.rest else sineAt (r.quadrant + 2) r.rest
  else y - y

/-- The cosine of an angle in radians: the sine a quarter turn on. -/
def cos (y : Float32) : Float32 :=
  let size := sizeBits y
  if size < 0x39800000 then 1
  else if size < 0x3F400000 then sineAt 1 (widen y)
  else if size < 0x42F00000 then
    let r := Reduced.moderate (widen y)
    sineAt (r.quadrant + 1) r.rest
  else if size < 0x7F800000 then
    let r := Reduced.large y.toBits
    sineAt (r.quadrant + 1) r.rest
  else y - y

end Arbor.Number
