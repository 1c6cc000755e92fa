import Arbor.Number.Single

/-!
# Reading decimal numbers

A decimal is digits with an optional point and an optional exponent.  It is read as the nearest
double, a tie to the even one; a single is what that double rounds to.
-/

namespace Arbor.Decimal

open Number (Format narrow)

/-- The value of a run of decimal digits, the leading one first. -/
def value (ds : List Char) : Nat :=
  ds.foldl (fun n c => 10 * n + (c.toNat - '0'.toNat)) 0

/-- The double nearest to `± n · 10^e`.  Exponents that leave the range of doubles whatever the
digits are settled before a power is computed. -/
def nearestDouble (negative : Bool) (n : Nat) (e : Int) : Float :=
  let sign : UInt64 := if negative then 0x8000000000000000 else 0
  let places := ((n.log2 : Int) * 30103 / 100000) + e
  let size :=
    if n = 0 then 0
    else if 310 < places then Format.double.infinity
    else if places < -330 then 0
    else Format.double.nearest (n * Nat.pow 10 e.toNat) (Nat.pow 10 (-e).toNat)
  Float.ofBits (size.toUInt64 ||| sign)

/-- The exponent of a decimal: a letter `e`, an optional sign, and at least one digit, up to the
end of the text.  No text is the exponent zero. -/
def readExponent : List Char → Option Int
  | [] => some 0
  | c :: rest =>
    if c = 'e' ∨ c = 'E' then
      let (negative, ds) := match rest with
        | '-' :: ds => (true, ds)
        | '+' :: ds => (false, ds)
        | ds => (false, ds)
      if ds.isEmpty ∨ ¬ ds.all Char.isDigit then none
      else some (if negative then -(value ds : Int) else value ds)
    else none

/-- A whole text as a decimal without a sign.  A point may stand at either end of the digits, but
there is at least one digit. -/
def readUnsigned (text : List Char) : Option (Nat × Int) :=
  let whole := text.takeWhile Char.isDigit
  let (fraction, rest) := match text.dropWhile Char.isDigit with
    | '.' :: rest => (rest.takeWhile Char.isDigit, rest.dropWhile Char.isDigit)
    | rest => ([], rest)
  if whole.isEmpty ∧ fraction.isEmpty then none
  else do
    let e ← readExponent rest
    return (value (whole ++ fraction), e - fraction.length)

/-- A whole text as the nearest double; a minus sign may stand in front. -/
def readDouble (text : List Char) : Option Float := do
  match text with
  | '-' :: text =>
    let (n, e) ← readUnsigned text
    return nearestDouble true n e
  | _ =>
    let (n, e) ← readUnsigned text
    return nearestDouble false n e

end Arbor.Decimal
