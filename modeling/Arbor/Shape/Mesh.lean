import Arbor.Space.Transform

/-!
# Meshes

Vertices and triangles.  A triangle is three indices of vertices, and the indices of a mesh are its
triangles one after another; they are 32-bit words, as graphics hosts take them.  Merging shifts
the indices of the second mesh behind the vertices of the first.
-/

namespace Arbor

open Number

/-- A corner of a mesh, with the direction that the surface faces and its place in a texture. -/
structure Vertex where
  position : Vec3
  normal : Vec3
  u : Float32
  v : Float32
  deriving DecidableEq

/-- The eight numbers of a vertex, as they lie in a buffer. -/
def Vertex.toList (a : Vertex) : List Float32 :=
  [a.position.x, a.position.y, a.position.z, a.normal.x, a.normal.y, a.normal.z, a.u, a.v]

/-- A triangle mesh. -/
structure Mesh where
  vertices : Array Vertex
  indices : Array UInt32
  deriving DecidableEq

namespace Mesh

/-- No vertices and no triangles. -/
def empty : Mesh := ⟨#[], #[]⟩

/-- The index that the next vertex gets. -/
def next (m : Mesh) : UInt32 := m.vertices.size.toUInt32

/-- The number of triangles. -/
def triangleCount (m : Mesh) : Nat := m.indices.size / 3

/-- The mesh with vertices added behind its own. -/
def addVertices (m : Mesh) (vs : List Vertex) : Mesh :=
  { m with vertices := m.vertices ++ vs }

/-- The mesh with indices added behind its own. -/
def addIndices (m : Mesh) (is : List UInt32) : Mesh :=
  { m with indices := m.indices ++ is }

/-- The mesh with one more triangle. -/
def addTriangle (m : Mesh) (a b c : UInt32) : Mesh := m.addIndices [a, b, c]

/-- The two triangles of a quadrilateral, whose corners are given counterclockwise. -/
def quad (a b c d : UInt32) : List UInt32 := [a, b, c, a, c, d]

/-- The mesh with one more quadrilateral. -/
def addQuad (m : Mesh) (a b c d : UInt32) : Mesh := m.addIndices (quad a b c d)

/-- Two meshes as one. -/
def merge (m n : Mesh) : Mesh :=
  let offset := m.next
  ⟨m.vertices ++ n.vertices, m.indices ++ n.indices.map (· + offset)⟩

/-- A vertex moved by a transform; its normal turns with the linear part. -/
def vertexTransformed (t : Transform) (a : Vertex) : Vertex :=
  { a with
    position := t.point a.position
    normal := (t.point a.normal - t.point .zero).normalize }

/-- The mesh with every vertex moved by a transform. -/
def transformed (m : Mesh) (t : Transform) : Mesh :=
  { m with vertices := m.vertices.map (vertexTransformed t) }

/-- All numbers of the vertices. -/
def vertexData (m : Mesh) : Array Float32 :=
  m.vertices.foldl (fun data a => data.appendList a.toList) #[]

/-! ## Rings -/

/-- The part `i / n` of a whole. -/
def part (i n : Nat) : Float32 := ofCount i / ofCount n

/-- The vertices of a circle about `direction`, with the texture coordinate `v` all around. -/
def ring (center direction : Vec3) (radius : Float32) (segments : Nat) (v : Float32) :
    List Vertex :=
  let tangent := direction.perpendicular
  let bitangent := (direction.normalize.cross tangent).normalize
  (List.range segments).map fun i =>
    let angle := part i segments * tau
    let offset := tangent.scale (cos angle * radius) + bitangent.scale (sin angle * radius)
    ⟨center + offset, offset.normalize, part i segments, v⟩

/-- The quadrilaterals between two rings of `segments` vertices that start at the given indices. -/
def band (first second : UInt32) (segments : Nat) : List UInt32 :=
  (List.range segments).flatMap fun i =>
    let here := i.toUInt32
    let there := ((i + 1) % segments).toUInt32
    quad (first + here) (second + here) (second + there) (first + there)

end Mesh

end Arbor
