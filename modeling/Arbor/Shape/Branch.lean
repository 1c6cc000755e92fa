import Arbor.Shape.Mesh
import Arbor.Space.Bezier

/-!
# Branches

A branch is a smooth curve through knots, each with a radius, of which a tube is made.  The tube
has a ring of vertices at each sample of the curve and a band between each ring and the next.
-/

namespace Arbor

open Number

/-- A point of a branch with its radius and the handles of its span ends. -/
structure Knot where
  position : Vec3
  radius : Float32
  left : Vec3
  right : Vec3
  deriving DecidableEq

/-- A run of segments at one depth. -/
structure Branch where
  knots : List Knot
  depth : Nat
  /-- The thickness of the tube for a radius of one. -/
  bevel : Float32
  deriving DecidableEq

/-- A point of a curve with its radius. -/
structure Sample where
  position : Vec3
  radius : Float32
  deriving DecidableEq

namespace Branch

/-- The samples of a curve in one mesh span. -/
def usualResolution : Nat := 12

/-- The vertices around a tube. -/
def usualSides : Nat := 16

/-- The branch through given knots, with automatic handles. -/
def ofSamples (samples : List Sample) (depth : Nat) (bevel : Float32) : Branch where
  knots := ((Handles.auto (samples.map Sample.position)).zip samples).map fun (h, s) =>
    ⟨s.position, s.radius, h.left, h.right⟩
  depth := depth
  bevel := bevel

/-- The number of spans between knots. -/
def spanCount (b : Branch) : Nat := b.knots.length - 1

/-- The thickness of the tube at a knot, zero past the last one. -/
def thickness (b : Branch) (i : Nat) : Float32 :=
  match b.knots[i]? with
  | some k => k.radius * b.bevel
  | none => 0

/-- The point of the span from `a` to `b` at the parameter `t`; the radius goes straight. -/
def between (a b : Knot) (t : Float32) : Sample :=
  ⟨bezier a.position a.right b.left b.position t, a.radius + (b.radius - a.radius) * t⟩

/-- The samples of a curve: `resolution` of each span, at least one, and the last knot. -/
def sample (b : Branch) (resolution : Nat) : List Sample :=
  let steps := max resolution 1
  ((b.knots.zip b.knots.tail).flatMap fun (k, l) =>
      (List.range steps).map fun i => between k l (Mesh.part i steps)) ++
    (match b.knots.getLast? with
      | some k => [⟨k.position, k.radius⟩]
      | none => [])

/-- For each sample the way from the one before it to the one after it; at the ends the sample
itself stands in for the one that is missing. -/
def headings (samples : List Sample) : List Vec3 :=
  let ps := samples.map Sample.position
  let before := ps.head?.toList ++ ps
  let after := ps.tail ++ ps.getLast?.toList
  (after.zip before).map fun (b, a) => b - a

/-- The rings of the tube of a curve, in order; `sides` vertices each. -/
def rings (b : Branch) (samples : List Sample) (sides : Nat) : List (List Vertex) :=
  let last := samples.length - 1
  ((samples.zip (headings samples)).zip (List.range samples.length)).map fun ((s, heading), i) =>
    Mesh.ring s.position heading.normalize (s.radius * b.bevel) sides (Mesh.part i last)

/-- The bands of a tube of `count` rings. -/
def bands (count sides : Nat) : List UInt32 :=
  (List.range (count - 1)).flatMap fun i =>
    Mesh.band (i * sides).toUInt32 ((i + 1) * sides).toUInt32 sides

/-- The tube along the sampled curve; empty for fewer than two samples or three sides. -/
def toMesh (b : Branch) (resolution sides : Nat) : Mesh :=
  let samples := b.sample resolution
  if samples.length < 2 ∨ sides < 3 then .empty
  else
    ⟨(b.rings samples sides).flatten.toArray, (bands samples.length sides).toArray⟩

end Branch

end Arbor
