import Arbor.Number.Circular
import Arbor.Number.ArcCosine

/-!
# Vectors

Points and directions of space, with `z` pointing up.  The order of the operations in each
formula is part of its meaning, as every one of them rounds.
-/

namespace Arbor

open Number

/-- A point or a direction; trees grow along `z`. -/
structure Vec3 where
  x : Float32
  y : Float32
  z : Float32
  deriving DecidableEq

namespace Vec3

def zero : Vec3 := ⟨0, 0, 0⟩
def unitX : Vec3 := ⟨1, 0, 0⟩
def unitY : Vec3 := ⟨0, 1, 0⟩
def unitZ : Vec3 := ⟨0, 0, 1⟩

/-- Equality of coordinates as numbers: the two zeros are equal and a NaN equals nothing. -/
def sameValue (a b : Vec3) : Bool := a.x == b.x && a.y == b.y && a.z == b.z

instance : Add Vec3 := ⟨fun a b => ⟨a.x + b.x, a.y + b.y, a.z + b.z⟩⟩
instance : Sub Vec3 := ⟨fun a b => ⟨a.x - b.x, a.y - b.y, a.z - b.z⟩⟩

/-- Every coordinate multiplied by a factor. -/
def scale (a : Vec3) (s : Float32) : Vec3 := ⟨a.x * s, a.y * s, a.z * s⟩

/-- The opposite vector, a multiple by minus one. -/
instance : Neg Vec3 := ⟨fun a => a.scale (-1)⟩

/-- The inner product. -/
def dot (a b : Vec3) : Float32 := a.x * b.x + a.y * b.y + a.z * b.z

/-- The vector product. -/
def cross (a b : Vec3) : Vec3 :=
  ⟨a.y * b.z - a.z * b.y, a.z * b.x - a.x * b.z, a.x * b.y - a.y * b.x⟩

/-- The square of the length. -/
def lengthSquared (a : Vec3) : Float32 := a.x * a.x + a.y * a.y + a.z * a.z

/-- The length. -/
def length (a : Vec3) : Float32 := a.lengthSquared.sqrt

/-- The vector of length one in the same direction; a vector without a positive length stays as
it is. -/
def normalize (a : Vec3) : Vec3 :=
  if 0 < a.length then a.scale (1 / a.length) else a

/-- How far two points are apart. -/
def distance (a b : Vec3) : Float32 := (a - b).length

/-- The angle between two directions, in `[0, π]`.  It is zero if the product of the lengths is
too small to divide by. -/
def angleTo (a b : Vec3) : Float32 :=
  let lengths := a.length * b.length
  if lengths ≤ epsilon then 0 else acos (clamp (a.dot b / lengths) (-1) 1)

/-- No coordinate is infinite or a NaN. -/
def isFinite (a : Vec3) : Bool := a.x.isFinite && a.y.isFinite && a.z.isFinite

/-- Some unit vector at a right angle: away from `z` the horizontal one, near it the one at a
right angle to `x`. -/
def perpendicular (a : Vec3) : Vec3 :=
  let n := a.normalize
  if n.z.abs < 0.9 then (n.cross unitZ).normalize else (n.cross unitX).normalize

/-- Rotation about a unit axis by the angle of a given sine and cosine (the formula of
Rodrigues). -/
def rotateBy (a : Vec3) (axis : Vec3) (sine cosine : Float32) : Vec3 :=
  a.scale cosine + (axis.cross a).scale sine + axis.scale (axis.dot a * (1 - cosine))

/-- Rotation about an axis of any length. -/
def rotateAround (a : Vec3) (axis : Vec3) (angle : Float32) : Vec3 :=
  a.rotateBy axis.normalize (sin angle) (cos angle)

end Vec3

end Arbor
