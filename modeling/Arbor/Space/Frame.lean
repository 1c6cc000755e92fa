import Arbor.Space.Vec3

/-!
# Frames

A frame is three directions: right, up and forward, the images of `x`, `y` and `z` under a
rotation.  After each rotation a frame is straightened, so rounding does not add up.
-/

namespace Arbor

open Number

/-- Local axes in world coordinates. -/
structure Frame where
  right : Vec3
  up : Vec3
  forward : Vec3
  deriving DecidableEq

namespace Frame

/-- The world axes. -/
def identity : Frame := ⟨.unitX, .unitY, .unitZ⟩

/-- The world axes rotated about an axis. -/
def ofAxisAngle (axis : Vec3) (angle : Float32) : Frame :=
  let unit := axis.normalize
  let sine := sin angle
  let cosine := cos angle
  ⟨Vec3.unitX.rotateBy unit sine cosine, Vec3.unitY.rotateBy unit sine cosine,
    Vec3.unitZ.rotateBy unit sine cosine⟩

/-- Local coordinates to world coordinates. -/
def transform (f : Frame) (v : Vec3) : Vec3 :=
  f.right.scale v.x + f.up.scale v.y + f.forward.scale v.z

/-- The frame `g`, given in the coordinates of `f`, in world coordinates. -/
def mul (f g : Frame) : Frame :=
  ⟨f.transform g.right, f.transform g.up, f.transform g.forward⟩

/-- Rotation about `x`, then `y`, then `z`. -/
def ofEuler (x y z : Float32) : Frame :=
  ((ofAxisAngle .unitZ z).mul (ofAxisAngle .unitY y)).mul (ofAxisAngle .unitX x)

/-- Unit axes at right angles that keep the direction of `forward`. -/
def orthonormalized (f : Frame) : Frame :=
  let forward := f.forward.normalize
  let right := (f.up.cross forward).normalize
  ⟨right, forward.cross right, forward⟩

/-- The frame rotated about a world axis. -/
def rotatedWorld (f : Frame) (axis : Vec3) (angle : Float32) : Frame :=
  ((ofAxisAngle axis angle).mul f).orthonormalized

/-- The frame rotated about an axis in its own coordinates. -/
def rotatedLocal (f : Frame) (axis : Vec3) (angle : Float32) : Frame :=
  f.rotatedWorld (f.transform axis) angle

/-- No coordinate is infinite or a NaN. -/
def isFinite (f : Frame) : Bool := f.right.isFinite && f.up.isFinite && f.forward.isFinite

end Frame

end Arbor
