import Arbor.Number.Single

/-!
# Arc cosine

A rational function approximates `(asin x - x) / x^3` on `[-1/2, 1/2]`; outside, half-angle
formulas lead back to it, with the square root split so that the square of its leading part is
exact.  All steps round to single precision.
-/

namespace Arbor.Number

/-- The rational approximation of `(asin x - x) / x` at `z = x²`. -/
def arcRatio (z : Float32) : Float32 :=
  let p := z * (Float32.ofBits 0x3E2AAAAB + z * (Float32.ofBits 0xBEA6B090
    + z * (Float32.ofBits 0x3E4E0AA8 + z * (Float32.ofBits 0xBD241146
    + z * (Float32.ofBits 0x3A4F7F04 + z * Float32.ofBits 0x3811EF08)))))
  let q := 1 + z * (Float32.ofBits 0xC019D139 + z * (Float32.ofBits 0x4001572D
    + z * (Float32.ofBits 0xBF303361 + z * Float32.ofBits 0x3D9DC62E)))
  p / q

/-- The leading part of `π/2`, and what it lacks. -/
def halfPiHigh : Float32 := Float32.ofBits 0x3FC90FDA
def halfPiLow : Float32 := Float32.ofBits 0x33A22168

/-- The angle in `[0, π]` with a given cosine; a NaN outside of `[-1, 1]`. -/
def acos (x : Float32) : Float32 :=
  let size := x.toBits &&& 0x7FFFFFFF
  if size = 0x3F800000 then
    if x.toBits < signBit then 0 else Float32.ofBits 0x40490FDA + 2 * halfPiLow
  else if 0x3F800000 < size then (x - x) / (x - x)
  else if size < 0x3F000000 then
    if size ≤ 0x23000000 then halfPiHigh + halfPiLow
    else halfPiHigh - (x - (halfPiLow - x * arcRatio (x * x)))
  else if signBit ≤ x.toBits then
    let z := (1 + x) * 0.5
    let s := z.sqrt
    let w := arcRatio z * s - halfPiLow
    Float32.ofBits 0x40490FDA - 2 * (s + w)
  else
    let z := (1 - x) * 0.5
    let s := z.sqrt
    let leading := Float32.ofBits (s.toBits &&& 0xFFFFF000)
    let c := (z - leading * leading) / (s + leading)
    let w := arcRatio z * s + c
    2 * (leading + w)

end Arbor.Number
