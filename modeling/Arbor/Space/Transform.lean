import Arbor.Space.Frame

/-!
# Transforms

Four-by-four matrices of homogeneous coordinates, held by columns.  `place` builds the matrix
that scales, rotates and moves; `Transform.point` applies the upper three rows to a point.
-/

namespace Arbor

/-- A column of homogeneous coordinates. -/
structure Column where
  x : Float32
  y : Float32
  z : Float32
  w : Float32
  deriving DecidableEq

/-- A matrix of homogeneous coordinates. -/
structure Transform where
  first : Column
  second : Column
  third : Column
  fourth : Column
  deriving DecidableEq

namespace Transform

/-- Every point stays. -/
def identity : Transform := ⟨⟨1, 0, 0, 0⟩, ⟨0, 1, 0, 0⟩, ⟨0, 0, 1, 0⟩, ⟨0, 0, 0, 1⟩⟩

/-- Every point moves by `v`. -/
def shift (v : Vec3) : Transform := { identity with fourth := ⟨v.x, v.y, v.z, 1⟩ }

/-- Every point is multiplied by `s`. -/
def uniformScale (s : Float32) : Transform := ⟨⟨s, 0, 0, 0⟩, ⟨0, s, 0, 0⟩, ⟨0, 0, s, 0⟩, ⟨0, 0, 0, 1⟩⟩

/-- A direction as a column. -/
def direction (v : Vec3) : Column := ⟨v.x, v.y, v.z, 0⟩

/-- The rotation of the world axes into a frame. -/
def ofFrame (f : Frame) : Transform :=
  ⟨direction f.right, direction f.up, direction f.forward, ⟨0, 0, 0, 1⟩⟩

/-- The image of a column.  Each sum starts from zero and runs from the first column on. -/
def column (m : Transform) (v : Column) : Column :=
  ⟨0 + m.first.x * v.x + m.second.x * v.y + m.third.x * v.z + m.fourth.x * v.w,
    0 + m.first.y * v.x + m.second.y * v.y + m.third.y * v.z + m.fourth.y * v.w,
    0 + m.first.z * v.x + m.second.z * v.y + m.third.z * v.z + m.fourth.z * v.w,
    0 + m.first.w * v.x + m.second.w * v.y + m.third.w * v.z + m.fourth.w * v.w⟩

/-- The transform that applies `n` first and then `m`. -/
def mul (m n : Transform) : Transform :=
  ⟨m.column n.first, m.column n.second, m.column n.third, m.column n.fourth⟩

/-- Scaling, then the rotation into a frame, then a move. -/
def place (position : Vec3) (f : Frame) (s : Float32) : Transform :=
  ((shift position).mul (ofFrame f)).mul (uniformScale s)

/-- The image of a point. -/
def point (m : Transform) (p : Vec3) : Vec3 :=
  ⟨m.first.x * p.x + m.second.x * p.y + m.third.x * p.z + m.fourth.x,
    m.first.y * p.x + m.second.y * p.y + m.third.y * p.z + m.fourth.y,
    m.first.z * p.x + m.second.z * p.y + m.third.z * p.z + m.fourth.z⟩

/-- The entries of a column from the top. -/
def columnEntries (c : Column) : List Float32 := [c.x, c.y, c.z, c.w]

/-- The sixteen entries, column after column. -/
def toList (m : Transform) : List Float32 :=
  columnEntries m.first ++ columnEntries m.second ++ columnEntries m.third ++
    columnEntries m.fourth

end Transform

end Arbor
