/-!
# Binary interchange formats

A finite magnitude of a binary format is `m · 2^q` for a natural number `m` and a unit exponent
`q`.  `Format.magnitude` reads it off a bit pattern and `Format.nearest` goes back: it rounds a
quotient of natural numbers to the nearest magnitude, a tie to the even one.  Everything here is
exact arithmetic on natural numbers, so it holds for the 32-bit and the 64-bit format alike.
-/

namespace Arbor.Number

/-- A binary format, given by the widths of its fraction and exponent fields. -/
structure Format where
  fractionBits : Nat
  exponentBits : Nat

namespace Format

/-- Single precision. -/
def single : Format := ⟨23, 8⟩

/-- Double precision. -/
def double : Format := ⟨52, 11⟩

/-- The exponent of the smallest unit, that of the subnormal numbers. -/
def minExponent (f : Format) : Int :=
  2 - (Nat.pow 2 (f.exponentBits - 1) : Nat) - f.fractionBits

/-- The bit pattern of positive infinity: all exponent bits set. -/
def infinity (f : Format) : Nat :=
  (Nat.pow 2 f.exponentBits - 1) * Nat.pow 2 f.fractionBits

/-- The magnitude `m · 2^q` that a pattern below `infinity` stands for. -/
def magnitude (f : Format) (bits : Nat) : Nat × Int :=
  let fraction := bits % Nat.pow 2 f.fractionBits
  let field := bits / Nat.pow 2 f.fractionBits
  if field = 0 then (fraction, f.minExponent)
  else (fraction + Nat.pow 2 f.fractionBits, f.minExponent + field - 1)

/-- `num / den` rounded to the nearest natural number, a tie to the even one. -/
def divEven (num den : Nat) : Nat :=
  let quotient := num / den
  let twice := 2 * (num % den)
  if twice < den then quotient
  else if den < twice then quotient + 1
  else quotient + quotient % 2

/-- `num / (den · 2^q)` as a quotient of natural numbers. -/
def scaled (num den : Nat) (q : Int) : Nat × Nat :=
  (num * Nat.pow 2 (-q).toNat, den * Nat.pow 2 q.toNat)

/-- The pattern of the magnitude nearest to `num / den`, a tie to the even pattern; quotients
past the largest finite magnitude give `infinity`.  The unit exponent is the smallest one at
which the quotient fits the fraction and its leading one, so a carry into the next power of two
needs no case of its own. -/
def nearest (f : Format) (num den : Nat) : Nat :=
  if num = 0 then 0
  else
    let low := max f.minExponent (num.log2 - den.log2 - 1 - f.fractionBits)
    let fits := num * Nat.pow 2 (-low).toNat <
      den * Nat.pow 2 low.toNat * Nat.pow 2 (f.fractionBits + 1)
    let q := if fits then low else low + 1
    let (n, d) := scaled num den q
    min f.infinity (divEven n d + (q - f.minExponent).toNat * Nat.pow 2 f.fractionBits)

end Format

end Arbor.Number
