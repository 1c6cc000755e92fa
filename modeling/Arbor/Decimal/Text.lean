import Arbor.Decimal.Shortest
import Arbor.Number.Single

/-!
# Decimal text of single-precision numbers

Two notations share the digits of `Decimal.shortest`.  `message` is the positional one of error
texts and summaries: no exponent however large the number, and no point for a whole one.
`document` is the one of parameter documents: a number always shows a point or an exponent, so
that it reads as a number with a fraction.
-/

namespace Arbor.Decimal

open Number (Format signBit)

/-- What a single-precision number is, with the digits of a finite one other than zero. -/
inductive Spelled where
  | nan
  | infinite (negative : Bool)
  | zero (negative : Bool)
  | finite (negative : Bool) (value : Scaled)

/-- The reading of a number on which both notations work. -/
def Spelled.ofSingle (tie : Tie) (x : Float32) : Spelled :=
  let negative : Bool := signBit ≤ x.toBits
  let size := (x.toBits &&& 0x7FFFFFFF).toNat
  if Format.single.infinity < size then .nan
  else if size = Format.single.infinity then .infinite negative
  else if size = 0 then .zero negative
  else
    let (m, q) := Format.single.magnitude size
    .finite negative (shortest Format.single tie m q)

/-- The decimal digits of a natural number, the leading one first. -/
def digits (n : Nat) : List Char := Nat.toDigits 10 n

/-- A minus sign in front of a negative number. -/
def signed (negative : Bool) (text : List Char) : List Char :=
  if negative then '-' :: text else text

/-- `ds · 10^e` written out, with `whole` behind a number that needs no point. -/
def positional (whole : List Char) (ds : List Char) (e : Int) : List Char :=
  let point := ds.length + e
  if 0 ≤ e then ds ++ List.replicate e.toNat '0' ++ whole
  else if 0 < point then ds.take point.toNat ++ '.' :: ds.drop point.toNat
  else '0' :: '.' :: List.replicate (-point).toNat '0' ++ ds

/-- Positional notation, whatever the size; a tie between two shortest decimals goes up. -/
def message (x : Float32) : String :=
  String.ofList <| match Spelled.ofSingle .up x with
    | .nan => "NaN".toList
    | .infinite negative => signed negative "inf".toList
    | .zero negative => signed negative ['0']
    | .finite negative d => signed negative (positional [] (digits d.digits) d.exponent)

/-- One digit before the point and a decimal exponent. -/
def scientific (ds : List Char) (exponent : Int) : List Char :=
  let fraction := match ds.drop 1 with
    | [] => []
    | rest => '.' :: rest
  ds.take 1 ++ fraction ++ 'e' :: (toString exponent).toList

/-- Positional from `10^-5` up to thirteen places before the point, else with an exponent; a tie
between two shortest decimals goes to the even one. -/
def document (x : Float32) : List Char :=
  match Spelled.ofSingle .toEven x with
  | .nan => ".nan".toList
  | .infinite negative => signed negative ".inf".toList
  | .zero negative => signed negative "0.0".toList
  | .finite negative d =>
    let ds := digits d.digits
    let point := ds.length + d.exponent
    signed negative <|
      if -5 ≤ point ∧ point ≤ 13 then positional ".0".toList ds d.exponent
      else scientific ds (point - 1)

end Arbor.Decimal
