import Arbor.Number.Binary

/-!
# The shortest decimal that reads back

A magnitude `m · 2^q` is what every real in a cell around it rounds to.  `shortest` takes the
fewest decimal digits for which some decimal lies in that cell, and of those decimals the nearest
to the magnitude.  All comparisons are between exact products of natural numbers.

The grid of `n` digits has the unit `10^(k - n + 1)`, where `10^k` is the leading power of the
magnitude.  If a point of the grid lies in the cell, so does one of the two neighbours of the
magnitude on the grid, and only these are tried.
-/

namespace Arbor.Decimal

open Number (Format)

/-- A decimal `digits · 10^exponent`. -/
structure Scaled where
  digits : Nat
  exponent : Int

/-- The reals that round to the magnitude `middle · 2^exponent`, in units of `2^exponent`: those
between `low` and `high`, the ends included iff `closed`. -/
structure Cell where
  low : Nat
  middle : Nat
  high : Nat
  exponent : Int
  closed : Bool

namespace Cell

/-- The cell of a positive magnitude.  The gap below a power of two is half of the gap above it,
except at the smallest exponent; a tie goes to the even neighbour, so an even magnitude owns the
ends of its cell. -/
def ofMagnitude (f : Format) (m : Nat) (q : Int) : Cell :=
  let atPower := m = Nat.pow 2 f.fractionBits ∧ q ≠ f.minExponent
  ⟨4 * m - (if atPower then 1 else 2), 4 * m, 4 * m + 2, q - 2, m % 2 = 0⟩

/-- `n` units of the cell and `d` units of `10^k` on one scale, so that they compare as natural
numbers. -/
def binary (c : Cell) (k : Int) (n : Nat) : Nat :=
  n * Nat.pow 2 c.exponent.toNat * Nat.pow 10 (-k).toNat

@[inherit_doc binary]
def decimal (c : Cell) (k : Int) (d : Nat) : Nat :=
  d * Nat.pow 10 k.toNat * Nat.pow 2 (-c.exponent).toNat

/-- Whether `d · 10^k` lies in the cell. -/
def holds (c : Cell) (k : Int) (d : Nat) : Bool :=
  let x := c.decimal k d
  if c.closed then c.binary k c.low ≤ x && x ≤ c.binary k c.high
  else c.binary k c.low < x && x < c.binary k c.high

/-- The exponent `k` with `10^k ≤ middle · 2^exponent < 10^(k+1)`, from an estimate by the binary
logarithm that is off by at most one. -/
def leading (c : Cell) : Int :=
  let estimate := ((c.middle.log2 : Int) + c.exponent) * 30103 / 100000
  let reached (k : Int) : Bool := c.decimal k 1 ≤ c.binary k c.middle
  if reached (estimate + 1) then estimate + 1
  else if reached estimate then estimate
  else estimate - 1

end Cell

/-- Which of two equally near decimals is taken. -/
inductive Tie where
  | up
  | toEven

/-- The nearest decimal of the cell on the grid `10^k`, if one lies in it. -/
def nearestOnGrid (c : Cell) (tie : Tie) (k : Int) : Option Nat :=
  let middle := c.binary k c.middle
  let down := middle / c.decimal k 1
  let up := down + 1
  match c.holds k down, c.holds k up with
  | false, false => none
  | true, false => some down
  | false, true => some up
  | true, true =>
    let below := middle - c.decimal k down
    let above := c.decimal k up - middle
    if below < above then some down
    else if above < below then some up
    else match tie with
      | .up => some up
      | .toEven => some (if down % 2 = 0 then down else up)

/-- Tries the grids of `n` and more digits, `fuel` of them. -/
def searchGrids (c : Cell) (tie : Tie) (top : Int) : Nat → Nat → Scaled
  | 0, n => ⟨c.middle, top - n⟩
  | fuel + 1, n =>
    let k := top - n
    match nearestOnGrid c tie k with
    | some d => ⟨d, k⟩
    | none => searchGrids c tie top fuel (n + 1)

/-- Drops trailing zeros of the digits, which `fuel` bounds in number. -/
def Scaled.trim : Nat → Scaled → Scaled
  | 0, d => d
  | fuel + 1, d => if d.digits % 10 = 0 then trim fuel ⟨d.digits / 10, d.exponent + 1⟩ else d

/-- The shortest decimal that rounds to the positive magnitude `m · 2^q`.  Seventeen digits tell
any two doubles apart, and nine any two singles, so the search ends within its bound. -/
def shortest (f : Format) (tie : Tie) (m : Nat) (q : Int) : Scaled :=
  let c := Cell.ofMagnitude f m q
  (searchGrids c tie c.leading 17 0).trim 20

end Arbor.Decimal
