import Arbor.Shape.Mesh

/-!
# Foliage

A leaf is a flat blade, drawn once and placed many times.
-/

namespace Arbor

/-- A leaf in place. -/
structure LeafInstance where
  position : Vec3
  rotation : Frame
  scale : Float32
  /-- The number of branches that are open where it hangs. -/
  depth : Nat
  deriving DecidableEq

/-- The transform that puts the blade in place. -/
def LeafInstance.placement (l : LeafInstance) : Transform :=
  .place l.position l.rotation l.scale

namespace Blade

/-- The outline from the base along the left edge to the tip and back: sideways and lengthwise, for
a blade of length one. -/
def outline : List (Float32 × Float32) :=
  [(0, 0), (-0.15, 0.2), (-0.35, 0.4), (-0.3, 0.6), (-0.15, 0.8), (0, 1), (0.15, 0.8), (0.3, 0.6),
    (0.35, 0.4), (0.15, 0.2)]

/-- A blade of a given length, with its base at the origin and its tip along `z`: a fan of
triangles from the base. -/
def mesh (size : Float32) : Mesh where
  vertices := (outline.map fun (x, z) =>
    (⟨⟨x * size, 0, z * size⟩, ⟨0, -1, 0⟩, x + 0.5, z⟩ : Vertex)).toArray
  indices := ((List.range (outline.length - 2)).flatMap fun i =>
    [0, (i + 1).toUInt32, (i + 2).toUInt32]).toArray

end Blade

end Arbor
