import Arbor.Space.Vec3

/-!
# Bézier spans

Smooth runs through given knots.  Each knot has two handles on the line through it that is
parallel to the chord between its neighbours; a handle reaches a third of the span on its side.
-/

namespace Arbor

/-- The control points beside a knot, towards the knots before and after it. -/
structure Handles where
  left : Vec3
  right : Vec3
  deriving DecidableEq

namespace Handles

/-- The direction of the run at a knot, from the neighbours that it has. -/
def tangent (before : Option Vec3) (p : Vec3) (after : Option Vec3) : Vec3 :=
  match before, after with
  | some a, some b => (b - a).normalize
  | none, some b => (b - p).normalize
  | some a, none => (p - a).normalize
  | none, none => .zero

/-- A third of the way to a neighbour; nothing without one. -/
def reach (p : Vec3) (neighbour : Option Vec3) : Float32 :=
  match neighbour with
  | some a => p.distance a / 3
  | none => 0

/-- The handles of a knot with the given neighbours. -/
def atKnot (before : Option Vec3) (p : Vec3) (after : Option Vec3) : Handles :=
  let t := tangent before p after
  ⟨p - t.scale (reach p before), p + t.scale (reach p after)⟩

/-- The handles of a run of knots: each knot is paired with the one before it and the one after
it, which the ends lack. -/
def auto (knots : List Vec3) : List Handles :=
  let before := none :: knots.map some
  let after := knots.tail.map some ++ [none]
  (knots.zip (before.zip after)).map fun (p, a, b) => atKnot a p b

end Handles

/-- The point of a cubic span at the parameter `t`, from its ends and the handles between. -/
def bezier (p₀ h₀ h₁ p₁ : Vec3) (t : Float32) : Vec3 :=
  let u := 1 - t
  p₀.scale (u * u * u) + h₀.scale (3 * u * u * t) + h₁.scale (3 * u * t * t) +
    p₁.scale (t * t * t)

end Arbor
