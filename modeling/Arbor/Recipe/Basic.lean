import Arbor.Lindenmayer.Derivation
import Arbor.Shape.Assembly
import Arbor.Turtle.Settings

/-!
# Recipes

A recipe holds every choice that a tree depends on, as a person writes it: the grammar as text and
angles in degrees.  The settings of the turtle, of the assembly and of the grammar are read off it.
-/

namespace Arbor

open Number

/-- All choices of a tree.  Angles are in degrees. -/
structure Recipe where
  axiomText : String
  /-- One rule on each line. -/
  rulesText : String
  iterations : Nat
  angle : Float32
  initialLength : Float32
  lengthDecay : Float32
  initialRadius : Float32
  radiusDecay : Float32
  /-- The thickness of a tube for a radius of one. -/
  bevelDepth : Float32
  branchSpread : Float32
  rotationJitter : Float32
  lengthJitter : Float32
  tropismStrength : Float32
  tropismDirection : Vec3
  seed : UInt64
  addLeaves : Bool
  leafSize : Float32
  leafJitter : Float32
  branchRoll : Bool
  /-- The longest word that the grammar may reach. -/
  maxSymbols : Nat
  deriving DecidableEq

namespace Recipe

/-- The recipe that is there before any choice is made. -/
def usual : Recipe where
  axiomText := "X"
  rulesText := "X:F[+X]F[-X]FX\nF:FF"
  iterations := 6
  angle := 20
  initialLength := 1
  lengthDecay := 0.88
  initialRadius := 1
  radiusDecay := 0.9
  bevelDepth := 0.05
  branchSpread := 30
  rotationJitter := 5
  lengthJitter := 0.1
  tropismStrength := 0.05
  tropismDirection := .unitZ
  seed := 42
  addLeaves := true
  leafSize := 0.3
  leafJitter := 0.1
  branchRoll := true
  maxSymbols := Limits.usualSymbols

/-- The settings of the turtle, with angles in radians. -/
def turtle (r : Recipe) : Turtle.Settings where
  angle := radians r.angle
  initialLength := r.initialLength
  initialRadius := r.initialRadius
  lengthDecay := r.lengthDecay
  radiusDecay := r.radiusDecay
  rotationJitter := radians r.rotationJitter
  lengthJitter := r.lengthJitter
  branchSpread := radians r.branchSpread
  branchRoll := r.branchRoll
  tropismStrength := r.tropismStrength
  tropismDirection := r.tropismDirection
  leafJitter := r.leafJitter

/-- The settings of the assembly. -/
def assembly (r : Recipe) : Assembly.Settings :=
  ⟨r.bevelDepth, r.addLeaves, r.leafSize, r.seed⟩

/-- The limits of the grammar. -/
def limits (r : Recipe) : Limits := { Limits.usual with maxSymbols := r.maxSymbols }

/-- The first symbol of the axiom to the last leaf: whether every choice is admissible. -/
def check (r : Recipe) : Except Failure Unit := do
  if (Text.trim r.axiomText.toList).isEmpty then
    throw (.invalidField .axiomText .noSymbol)
  if Limits.usualPasses < r.iterations then
    throw (.tooManyPasses r.iterations Limits.usualPasses)
  if r.maxSymbols = 0 ∨ Limits.ceiling < r.maxSymbols then
    throw (.invalidField .maxSymbols (.noCeiling r.maxSymbols Limits.ceiling))
  r.turtle.check
  r.assembly.check

/-- Equality of choices, where numbers are compared as numbers: the two zeros are equal and a NaN
equals nothing. -/
def sameValue (r s : Recipe) : Bool :=
  r.axiomText == s.axiomText && r.rulesText == s.rulesText && r.iterations == s.iterations
    && r.angle == s.angle && r.initialLength == s.initialLength
    && r.lengthDecay == s.lengthDecay && r.initialRadius == s.initialRadius
    && r.radiusDecay == s.radiusDecay && r.bevelDepth == s.bevelDepth
    && r.branchSpread == s.branchSpread && r.rotationJitter == s.rotationJitter
    && r.lengthJitter == s.lengthJitter && r.tropismStrength == s.tropismStrength
    && r.tropismDirection.sameValue s.tropismDirection && r.seed == s.seed
    && r.addLeaves == s.addLeaves && r.leafSize == s.leafSize && r.leafJitter == s.leafJitter
    && r.branchRoll == s.branchRoll && r.maxSymbols == s.maxSymbols

end Recipe

end Arbor
