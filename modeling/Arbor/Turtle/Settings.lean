import Arbor.Failure
import Arbor.Space.Vec3

/-!
# Settings of the turtle

How far, how thick and how crooked the turtle draws.  Angles are in radians.  `Settings.check`
admits the settings for which every step has a positive length and every variation a bounded range;
it reports the first field at fault.  The range checks themselves serve other settings too.
-/

namespace Arbor

open Number

/-! ## Checks of one number -/

namespace Check

/-- Neither infinite nor a NaN. -/
def finite (field : Field) (v : Float32) : Except Failure Unit :=
  if v.isFinite then .ok () else .error (.invalidField field (.notFinite v))

/-- Finite and above zero. -/
def positive (field : Field) (v : Float32) : Except Failure Unit := do
  finite field v
  if 0 < v then .ok () else .error (.invalidField field (.notPositive v))

/-- Finite and not below zero. -/
def nonNegative (field : Field) (v : Float32) : Except Failure Unit := do
  finite field v
  if 0 ≤ v then .ok () else .error (.invalidField field (.negative v))

/-- What a bound admits above it: degrees that stand for the bound may pass it in radians. -/
def slack : Float32 := 1e-5

/-- In `[0, bound]`. -/
def bounded (field : Field) (v bound : Float32) : Except Failure Unit := do
  nonNegative field v
  if v ≤ bound + slack then .ok () else .error (.invalidField field (.above v bound))

/-- In `(0, 1]`. -/
def decay (field : Field) (v : Float32) : Except Failure Unit := do
  finite field v
  if 0 < v ∧ v ≤ 1 then .ok () else .error (.invalidField field (.notDecay v))

end Check

namespace Turtle

/-- What the turtle goes by. -/
structure Settings where
  /-- The turn of a rotation symbol. -/
  angle : Float32
  /-- The length of the first step. -/
  initialLength : Float32
  /-- The radius at the foot of the trunk. -/
  initialRadius : Float32
  /-- The factor of the length after each move. -/
  lengthDecay : Float32
  /-- The factor of the radius after each move and at the foot of each branch. -/
  radiusDecay : Float32
  /-- The largest deviation of a rotation. -/
  rotationJitter : Float32
  /-- The largest deviation of a step, as a part of its length. -/
  lengthJitter : Float32
  /-- The largest random yaw of turns and new branches. -/
  branchSpread : Float32
  /-- Whether a new branch rolls about its parent by a random angle. -/
  branchRoll : Bool
  /-- How hard the heading bends toward `tropismDirection`. -/
  tropismStrength : Float32
  tropismDirection : Vec3
  /-- The largest offset of a leaf on each axis. -/
  leafJitter : Float32
  deriving DecidableEq

namespace Settings

/-- The settings of a lively tree. -/
def usual : Settings where
  angle := radians 20
  initialLength := 1
  initialRadius := 1
  lengthDecay := 0.88
  radiusDecay := 0.9
  rotationJitter := radians 5
  lengthJitter := 0.1
  branchSpread := radians 30
  branchRoll := true
  tropismStrength := 0.05
  tropismDirection := .unitZ
  leafJitter := 0.1

/-- No variation, no tropism and no decay: every turn is by the same angle. -/
def rigid (angle : Float32) : Settings where
  angle := angle
  initialLength := 1
  initialRadius := 1
  lengthDecay := 1
  radiusDecay := 1
  rotationJitter := 0
  lengthJitter := 0
  branchSpread := 0
  branchRoll := false
  tropismStrength := 0
  tropismDirection := .unitZ
  leafJitter := 0

/-- The settings that the turtle can walk by. -/
def check (s : Settings) : Except Failure Unit := do
  Check.finite .angle s.angle
  Check.positive .initialLength s.initialLength
  Check.positive .initialRadius s.initialRadius
  Check.decay .lengthDecay s.lengthDecay
  Check.decay .radiusDecay s.radiusDecay
  Check.bounded .rotationJitter s.rotationJitter quarterPi
  Check.nonNegative .lengthJitter s.lengthJitter
  if 1 ≤ s.lengthJitter then
    throw (.invalidField .lengthJitter (.stopsSteps s.lengthJitter))
  Check.bounded .branchSpread s.branchSpread pi
  Check.bounded .tropismStrength s.tropismStrength 1
  if ¬ s.tropismDirection.isFinite ∨ s.tropismDirection.length < 1e-6 then
    throw (.invalidField .tropismDirection .noDirection)
  Check.bounded .leafJitter s.leafJitter 2

end Settings

end Turtle

end Arbor
