import Arbor.Shape.Branch
import Arbor.Shape.Foliage

/-!
# Geometry

The curves and leaves of a tree, the box around them, and their meshes.
-/

namespace Arbor

open Number

/-- What there is to draw of a tree. -/
structure Geometry where
  branches : List Branch
  leaves : List LeafInstance
  deriving DecidableEq

/-- A box along the axes. -/
structure Box where
  low : Vec3
  high : Vec3
  deriving DecidableEq

/-- The box grown to hold a point. -/
def Box.include (b : Box) (p : Vec3) : Box :=
  ⟨⟨least b.low.x p.x, least b.low.y p.y, least b.low.z p.z⟩,
    ⟨greatest b.high.x p.x, greatest b.high.y p.y, greatest b.high.z p.z⟩⟩

namespace Geometry

/-- The number of knots. -/
def knotCount (g : Geometry) : Nat := g.branches.foldl (fun n b => n + b.knots.length) 0

/-- The positions of all knots, then those of all leaves. -/
def positions (g : Geometry) : List Vec3 :=
  (g.branches.flatMap fun b => b.knots.map Knot.position) ++ g.leaves.map LeafInstance.position

/-- The least box that holds all positions. -/
def bounds (g : Geometry) : Option Box :=
  match g.positions with
  | [] => none
  | p :: ps => some (ps.foldl Box.include ⟨p, p⟩)

/-- The tubes of all branches. -/
def branchMesh (g : Geometry) (resolution sides : Nat) : Mesh :=
  g.branches.foldl (fun m b => m.merge (b.toMesh resolution sides)) .empty

/-- A blade at every leaf. -/
def leafMesh (g : Geometry) (blade : Mesh) : Mesh :=
  g.leaves.foldl (fun m l => m.merge (blade.transformed l.placement)) .empty

end Geometry

end Arbor
