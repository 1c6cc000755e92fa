import Arbor.Recipe.Catalog
import Arbor.Text.Escape
import Arbor.Tree.Growth

/-!
# Sessions

A session holds a recipe, the last tree that was grown, and its meshes once they have been asked
for.  An operation that fails leaves the session as it was: it gives a failure in place of a new
session.  A growth that fails keeps the tree before it, and one that succeeds drops the meshes.
-/

namespace Arbor

/-- What is kept between operations. -/
structure Session where
  recipe : Recipe
  tree : Option Tree
  /-- The meshes of the branches and of the leaves. -/
  meshes : Option (Mesh × Mesh)

namespace Session

/-- The usual recipe, and no tree. -/
def start : Session := ⟨.usual, none, none⟩

/-! ## Choices -/

/-- Takes over the choices of a shipped preset. -/
def applyPreset (s : Session) (key : String) : Except Failure Session := do
  let preset ← Catalog.shipped.find key
  return { s with recipe := s.recipe.apply preset }

/-- Replaces the whole recipe by what a reader makes of a text. -/
def configure (s : Session) (read : String → Except Failure Recipe) (text : String) :
    Except Failure Session := do
  let recipe ← read text
  return { s with recipe := recipe }

def setAxiom (s : Session) (text : String) : Session :=
  { s with recipe := { s.recipe with axiomText := text } }

def setRules (s : Session) (text : String) : Session :=
  { s with recipe := { s.recipe with rulesText := text } }

/-- Sets the number of passes, which is not below zero. -/
def setIterations (s : Session) (n : Int) : Except Failure Session :=
  if n < 0 then .error (.invalidField .iterations (.negativeCount n))
  else .ok { s with recipe := { s.recipe with iterations := n.toNat } }

def setAngle (s : Session) (degrees : Float32) : Session :=
  { s with recipe := { s.recipe with angle := degrees } }

def setSeed (s : Session) (seed : UInt32) : Session :=
  { s with recipe := { s.recipe with seed := seed.toUInt64 } }

def setAddLeaves (s : Session) (add : Bool) : Session :=
  { s with recipe := { s.recipe with addLeaves := add } }

/-! ## Growth -/

/-- Grows the tree of the recipe. -/
def grow (s : Session) : Except Failure Session := do
  let tree ← s.recipe.grow
  return { s with tree := some tree, meshes := none }

/-! ## What there is to see -/

def symbolCount (s : Session) : Nat := s.tree.elim 0 Tree.symbolCount

def segmentCount (s : Session) : Nat := s.tree.elim 0 fun t => t.trace.segments.length

def branchCount (s : Session) : Nat := s.tree.elim 0 fun t => t.geometry.branches.length

def leafCount (s : Session) : Nat := s.tree.elim 0 fun t => t.geometry.leaves.length

/-- The branch with a given number. -/
def branch? (s : Session) (i : Nat) : Option Branch := do
  let tree ← s.tree
  tree.geometry.branches[i]?

/-- The knots of a branch, four numbers each: the position and the radius. -/
def branchPoints (s : Session) (i : Nat) : List Float32 :=
  (s.branch? i).elim [] fun b =>
    b.knots.flatMap fun k => [k.position.x, k.position.y, k.position.z, k.radius]

/-- The depth of a branch as a signed 32-bit word, minus one without such a branch. -/
def branchDepth (s : Session) (i : Nat) : Int :=
  (s.branch? i).elim (-1) fun b => (b.depth : Int).bmod UInt32.size

/-- The sixteen entries of the placement of every leaf. -/
def leafPlacements (s : Session) : List Float32 :=
  s.tree.elim [] fun t => t.geometry.leaves.flatMap fun l => l.placement.toList

/-- The texts of the warnings of the last growth. -/
def warnings (s : Session) : List String :=
  s.tree.elim [] fun t => t.trace.warnings.map fun
    | .unmatchedPop index => "unmatched ']' at symbol " ++ toString index ++ " ignored"
    | .unclosedBranches depth => toString depth ++ " branch(es) left open at end of string"

/-- The meshes of a tree: its tubes, and a blade of length one at every leaf. -/
def meshesOf (t : Tree) : Mesh × Mesh :=
  (t.geometry.branchMesh Branch.usualResolution Branch.usualSides,
    t.geometry.leafMesh (Blade.mesh 1))

/-- The meshes of the tree, and the session that holds on to them. -/
def withMeshes (s : Session) : Option (Mesh × Mesh) × Session :=
  match s.meshes with
  | some m => (some m, s)
  | none =>
    match s.tree with
    | none => (none, s)
    | some t =>
      let m := meshesOf t
      (some m, { s with meshes := some m })

/-- The numbers of the vertices of the branch mesh. -/
def branchVertices (s : Session) : Array Float32 × Session :=
  let (m, s) := s.withMeshes
  (m.elim #[] fun m => m.1.vertexData, s)

/-- The indices of the branch mesh. -/
def branchIndices (s : Session) : Array UInt32 × Session :=
  let (m, s) := s.withMeshes
  (m.elim #[] fun m => m.1.indices, s)

/-- The numbers of the vertices of the leaf mesh. -/
def leafVertices (s : Session) : Array Float32 × Session :=
  let (m, s) := s.withMeshes
  (m.elim #[] fun m => m.2.vertexData, s)

/-- The indices of the leaf mesh. -/
def leafIndices (s : Session) : Array UInt32 × Session :=
  let (m, s) := s.withMeshes
  (m.elim #[] fun m => m.2.indices, s)

/-! ## The summary -/

/-- The six numbers of a box in brackets. -/
def boxText (b : Box) : String :=
  "[" ++ String.intercalate "," ([b.low.x, b.low.y, b.low.z, b.high.x, b.high.y, b.high.z].map
    Decimal.message) ++ "]"

/-- An object with the counts of the last growth, beside the axiom, the iterations and the seed of
the recipe; `null` before the first growth. -/
def summary (s : Session) : String :=
  match s.tree with
  | none => "null"
  | some t =>
    "\x7b\"axiom\":\"" ++ String.ofList (Text.escape s.recipe.axiomText.toList)
      ++ "\",\"iterations\":" ++ toString s.recipe.iterations
      ++ ",\"seed\":" ++ toString s.recipe.seed
      ++ ",\"symbols\":" ++ toString t.symbolCount
      ++ ",\"segments\":" ++ toString t.trace.segments.length
      ++ ",\"curves\":" ++ toString t.geometry.branches.length
      ++ ",\"leaves\":" ++ toString t.geometry.leaves.length
      ++ ",\"maxDepth\":" ++ toString t.trace.maxDepth
      ++ ",\"warnings\":" ++ toString t.trace.warnings.length
      ++ ",\"bounds\":" ++ (t.geometry.bounds.elim "null" boxText) ++ "\x7d"

end Session

end Arbor
