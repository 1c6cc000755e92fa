import Arbor.Recipe.Basic

/-!
# Presets

A preset names a grammar and its growth.  It overlays a recipe and leaves alone what is not a
matter of the shape: the seed, the leaves, the roll, the direction of the tropism and the ceiling.
-/

namespace Arbor

/-- A named shape of tree.  Angles are in degrees. -/
structure Preset where
  /-- What it is looked up by. -/
  key : String
  /-- What it is shown as. -/
  name : String
  axiomText : String
  rulesText : String
  iterations : Nat
  angle : Float32
  initialLength : Float32
  lengthDecay : Float32
  initialRadius : Float32
  radiusDecay : Float32
  bevelDepth : Float32
  tropismStrength : Float32
  rotationJitter : Float32
  lengthJitter : Float32
  leafJitter : Float32
  branchSpread : Float32
  deriving DecidableEq

/-- The recipe with the choices of a preset. -/
def Recipe.apply (r : Recipe) (p : Preset) : Recipe :=
  { r with
    axiomText := p.axiomText
    rulesText := p.rulesText
    iterations := p.iterations
    angle := p.angle
    initialLength := p.initialLength
    lengthDecay := p.lengthDecay
    initialRadius := p.initialRadius
    radiusDecay := p.radiusDecay
    bevelDepth := p.bevelDepth
    tropismStrength := p.tropismStrength
    rotationJitter := p.rotationJitter
    lengthJitter := p.lengthJitter
    leafJitter := p.leafJitter
    branchSpread := p.branchSpread }

/-- The usual recipe with the choices of a preset. -/
def Recipe.ofPreset (p : Preset) : Recipe := Recipe.usual.apply p

namespace Preset

/-- The productions that the rules of the preset write. -/
def productions (p : Preset) : Except Failure Productions :=
  Productions.ofText p.rulesText

/-- A key, a recipe that can be used, and rules that can be read. -/
def check (p : Preset) : Except Failure Unit := do
  if (Text.trim p.key.toList).isEmpty then
    throw (.invalidField .key .emptyKey)
  (Recipe.ofPreset p).check
  let _ ← p.productions
  return ()

/-- A preset with the variation that all shipped shapes share. -/
def shaped (key name axiomText rulesText : String) (iterations : Nat)
    (angle lengthDecay radiusDecay : Float32) : Preset where
  key := key
  name := name
  axiomText := axiomText
  rulesText := rulesText
  iterations := iterations
  angle := angle
  initialLength := 1
  lengthDecay := lengthDecay
  initialRadius := 1
  radiusDecay := radiusDecay
  bevelDepth := 0.05
  tropismStrength := 0.05
  rotationJitter := 5
  lengthJitter := 0.1
  leafJitter := 0.1
  branchSpread := 30

end Preset

end Arbor
