import Arbor.Number.Binary

/-!
# Single-precision numbers

The scalars of the library are `Float32`.  This module has what the core type lacks in its
logical model: the passage to double precision and back, the constants that lengths and angles
use, and the comparisons that skip a NaN.
-/

namespace Arbor.Number

/-- The pattern of the sign bit of a single-precision number. -/
def signBit : UInt32 := 0x80000000

/-- The double-precision number of the same value.  Subnormal singles are exact multiples of
`2^-149`, which a double holds exactly. -/
def widen (x : Float32) : Float :=
  let bits := x.toBits
  let sign := (bits &&& signBit).toUInt64 <<< 32
  let size := (bits &&& 0x7FFFFFFF).toUInt64
  if size < 0x00800000 then
    let small := size.toFloat * Float.ofBits 0x36A0000000000000
    Float.ofBits (small.toBits ||| sign)
  else if size < 0x7F800000 then
    Float.ofBits (((size <<< 29) + 0x3800000000000000) ||| sign)
  else if size = 0x7F800000 then
    Float.ofBits (0x7FF0000000000000 ||| sign)
  else Float.ofBits 0x7FF8000000000000

/-- `n / 2^shift` rounded to nearest, a tie to even, for a positive `shift` below 64. -/
def shiftEven (n shift : UInt64) : UInt64 :=
  (n + (((1 : UInt64) <<< (shift - 1)) - 1) + ((n >>> shift) &&& 1)) >>> shift

/-- The single-precision number nearest to a double, a tie to even.  Below the normal range the
leading one is made explicit and shifted down to the unit `2^-149`. -/
def narrow (x : Float) : Float32 :=
  let bits := x.toBits
  let sign := (bits >>> 32).toUInt32 &&& signBit
  let size := bits &&& 0x7FFFFFFFFFFFFFFF
  if 0x7FF0000000000000 < size then Float32.ofBits 0x7FC00000
  else if 0x3810000000000000 ≤ size then
    let rounded := shiftEven (size - 0x3800000000000000) 29
    Float32.ofBits ((if rounded < 0x7F800000 then rounded.toUInt32 else 0x7F800000) ||| sign)
  else
    let field := size >>> 52
    let shift := 926 - field
    if 54 < shift then Float32.ofBits sign
    else
      let whole := (size &&& 0xFFFFFFFFFFFFF) ||| 0x10000000000000
      Float32.ofBits ((shiftEven whole shift).toUInt32 ||| sign)

/-- Half a turn in radians. -/
def pi : Float32 := Float32.ofBits 0x40490FDB

/-- A full turn in radians. -/
def tau : Float32 := Float32.ofBits 0x40C90FDB

/-- An eighth of a turn in radians. -/
def quarterPi : Float32 := Float32.ofBits 0x3F490FDB

/-- The distance from one to the next larger single-precision number. -/
def epsilon : Float32 := Float32.ofBits 0x34000000

/-- Degrees in radians, by the factor `π / 180` rounded to single precision. -/
def radians (degrees : Float32) : Float32 :=
  degrees * (pi / 180)

/-- The smaller of two numbers; a NaN gives way to the other one, and of two equal numbers the
first is kept. -/
def least (a b : Float32) : Float32 :=
  if a.isNaN then b else if b < a then b else a

/-- The larger of two numbers; a NaN gives way to the other one, and of two equal numbers the
first is kept. -/
def greatest (a b : Float32) : Float32 :=
  if a.isNaN then b else if a < b then b else a

/-- The nearest point of `[lo, hi]`; a NaN stays one. -/
def clamp (x lo hi : Float32) : Float32 :=
  if x < lo then lo else if hi < x then hi else x

/-- The single-precision number nearest to a natural number below `2^64`. -/
def ofCount (n : Nat) : Float32 :=
  n.toUInt64.toFloat32

end Arbor.Number
