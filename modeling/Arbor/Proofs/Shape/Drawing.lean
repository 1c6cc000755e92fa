import Arbor.Proofs.Shape.Runs
import Arbor.Proofs.Shape.Tubes
import Mathlib.Algebra.BigOperators.Ring.List
import Mathlib.Algebra.Order.BigOperators.Group.List
import Mathlib.Algebra.Order.Ring.Nat

/-!
# Drawing a geometry

The sizes of the meshes of a geometry follow from its counts: the tubes need a ring for each sample
of each span and one more for each branch, and the leaves need a blade each.  The meshes are valid,
and no index wraps, as long as fewer than `2 ^ 32` vertices are needed.

This is said of a geometry that is `Spanned`, in which every branch has a span.
-/

namespace Arbor

open Mesh

namespace Geometry

variable {g : Geometry} {resolution sides : Nat}

/-- Every branch has a span. -/
def Spanned (g : Geometry) : Prop := ∀ b ∈ g.branches, 0 < b.spanCount

/-- The spans of all branches. -/
def spanTotal (g : Geometry) : Nat := (g.branches.map Branch.spanCount).sum

/-- The vertices of all tubes. -/
def tubeVertices (g : Geometry) (resolution sides : Nat) : Nat :=
  (g.spanTotal * max resolution 1 + g.branches.length) * sides

lemma Spanned.length_branches_le (h : g.Spanned) : g.branches.length ≤ g.spanTotal := by
  have hsum := List.length_le_sum_of_one_le (g.branches.map Branch.spanCount) fun n hn => by
    obtain ⟨b, hb, rfl⟩ := List.mem_map.mp hn
    exact h b hb
  rwa [List.length_map] at hsum

lemma knotCount_eq_sum : g.knotCount = (g.branches.map fun b => b.knots.length).sum := by
  rw [knotCount, List.sum_eq_foldl, List.foldl_map]

/-- A branch has one more knot than spans. -/
lemma Spanned.knotCount_eq (h : g.Spanned) : g.knotCount = g.spanTotal + g.branches.length := by
  have hknots : ∀ b ∈ g.branches, b.knots.length = b.spanCount + 1 := by
    intro b hb
    have hspan := h b hb
    rw [Branch.spanCount] at hspan ⊢
    omega
  rw [knotCount_eq_sum, List.map_congr_left hknots, List.sum_map_add, List.map_const',
    List.sum_replicate_nat, mul_one, spanTotal]

/-! ## The tubes -/

lemma branchMesh_eq : g.branchMesh resolution sides =
    mergeAll (fun b => Branch.toMesh b resolution sides) g.branches := rfl

/-- `branchMesh` with its casts and its sums checked. -/
def branchMesh? (g : Geometry) (resolution sides : Nat) : Option Mesh :=
  mergeAll? (fun b => Branch.toMesh? b resolution sides) g.branches

lemma Spanned.totalVertices_eq (h : g.Spanned) (hsides : 3 ≤ sides) :
    totalVertices (fun b => Branch.toMesh b resolution sides) g.branches =
      g.tubeVertices resolution sides := by
  have hsize : ∀ b ∈ g.branches, (b.toMesh resolution sides).vertices.size =
      (b.spanCount * max resolution 1 + 1) * sides :=
    fun b hb => Branch.toMesh_vertices_size (h b hb) hsides
  rw [totalVertices, List.map_congr_left hsize, List.sum_map_mul_right, List.sum_map_add,
    List.sum_map_mul_right, List.map_const', List.sum_replicate_nat, mul_one, tubeVertices,
    spanTotal]

lemma Spanned.branchMesh_vertices_size (h : g.Spanned) (hsides : 3 ≤ sides) :
    (g.branchMesh resolution sides).vertices.size = g.tubeVertices resolution sides := by
  rw [branchMesh_eq, mergeAll_vertices_size, h.totalVertices_eq hsides]

lemma Spanned.branchMesh_indices_size (h : g.Spanned) (hsides : 3 ≤ sides) :
    (g.branchMesh resolution sides).indices.size =
      g.spanTotal * max resolution 1 * (sides * 6) := by
  have hsize : ∀ b ∈ g.branches, (b.toMesh resolution sides).indices.size =
      b.spanCount * max resolution 1 * (sides * 6) :=
    fun b hb => Branch.toMesh_indices_size (h b hb) hsides
  rw [branchMesh_eq, mergeAll_indices_size, List.map_congr_left hsize, List.sum_map_mul_right,
    List.sum_map_mul_right, spanTotal]

/-- One tube has no more vertices than all of them together. -/
lemma Spanned.length_sample_mul_le (h : g.Spanned) {b : Branch} (hb : b ∈ g.branches) :
    (b.sample resolution).length * sides ≤ g.tubeVertices resolution sides := by
  have hspans : b.spanCount ≤ g.spanTotal := List.le_sum_of_mem (List.mem_map_of_mem hb)
  have hcount : 0 < g.branches.length := List.length_pos_of_mem hb
  rw [Branch.length_sample b (Branch.knots_ne_nil (h b hb)), tubeVertices]
  exact Nat.mul_le_mul_right _ (Nat.add_le_add (Nat.mul_le_mul_right _ hspans) hcount)

lemma Spanned.branchMesh_valid (h : g.Spanned) (hsides : 3 ≤ sides)
    (hfit : g.tubeVertices resolution sides < 2 ^ 32) : (g.branchMesh resolution sides).Valid := by
  refine mergeAll_valid (fun b hb => Branch.toMesh_valid ?_) ?_
  · exact lt_of_le_of_lt (h.length_sample_mul_le hb) hfit
  · rwa [h.totalVertices_eq hsides]

lemma Spanned.branchMesh?_eq_some (h : g.Spanned) (hsides : 3 ≤ sides)
    (hfit : g.tubeVertices resolution sides < 2 ^ 32) :
    g.branchMesh? resolution sides = some (g.branchMesh resolution sides) := by
  have hone : ∀ b ∈ g.branches, (b.sample resolution).length * sides < 2 ^ 32 :=
    fun b hb => lt_of_le_of_lt (h.length_sample_mul_le hb) hfit
  refine mergeAll?_eq_some (fun b hb => Branch.toMesh_valid (hone b hb))
    (fun b hb => Branch.toMesh?_eq_some (hone b hb)) ?_
  rwa [h.totalVertices_eq hsides]

end Geometry

/-! ## The blades -/

namespace Blade

/-- `mesh` with its casts checked. -/
def mesh? (size : Float32) : Option Mesh := do
  let fans ← (List.range (outline.length - 2)).mapM fun i => do
    return [0, ← index? (i + 1), ← index? (i + 2)]
  return { mesh size with indices := fans.flatten.toArray }

variable (size : Float32)

lemma mesh_vertices_size : (mesh size).vertices.size = 10 := rfl

lemma mesh_indices_size : (mesh size).indices.size = 24 := rfl

lemma mesh_valid : (mesh size).Valid where
  whole := ⟨8, rfl⟩
  inRange := by
    intro i hi
    obtain ⟨j, hj, hi⟩ := List.mem_flatMap.mp (List.mem_toArray.mp hi)
    have hj : j < 8 := List.mem_range.mp hj
    rw [mesh_vertices_size]
    simp only [List.mem_cons, List.not_mem_nil, or_false] at hi
    rcases hi with rfl | rfl | rfl
    · decide
    · rw [toNat_toUInt32 (by omega)]
      omega
    · rw [toNat_toUInt32 (by omega)]
      omega

lemma mesh?_eq_some : mesh? size = some (mesh size) := rfl

end Blade

namespace Geometry

variable (g : Geometry) (blade : Mesh)

lemma leafMesh_eq : g.leafMesh blade =
    mergeAll (fun l => blade.transformed (LeafInstance.placement l)) g.leaves := rfl

/-- `leafMesh` with its casts and its sums checked. -/
def leafMesh? (g : Geometry) (blade : Mesh) : Option Mesh :=
  mergeAll? (fun l => some (blade.transformed (LeafInstance.placement l))) g.leaves

lemma totalVertices_leaves :
    totalVertices (fun l => blade.transformed (LeafInstance.placement l)) g.leaves =
      g.leaves.length * blade.vertices.size := by
  simp only [totalVertices, transformed_vertices_size, List.map_const', List.sum_replicate_nat]

lemma leafMesh_vertices_size :
    (g.leafMesh blade).vertices.size = g.leaves.length * blade.vertices.size := by
  rw [leafMesh_eq, mergeAll_vertices_size, totalVertices_leaves]

lemma leafMesh_indices_size :
    (g.leafMesh blade).indices.size = g.leaves.length * blade.indices.size := by
  rw [leafMesh_eq, mergeAll_indices_size]
  simp only [transformed_indices, List.map_const', List.sum_replicate_nat]

variable {g blade}

lemma leafMesh_valid (hblade : blade.Valid)
    (hfit : g.leaves.length * blade.vertices.size < 2 ^ 32) : (g.leafMesh blade).Valid := by
  refine mergeAll_valid (fun l _ => hblade.transformed l.placement) ?_
  rwa [totalVertices_leaves]

lemma leafMesh?_eq_some (hblade : blade.Valid)
    (hfit : g.leaves.length * blade.vertices.size < 2 ^ 32) :
    g.leafMesh? blade = some (g.leafMesh blade) := by
  refine mergeAll?_eq_some (fun l _ => hblade.transformed l.placement) (fun _ _ => rfl) ?_
  rwa [totalVertices_leaves]

lemma length_placements : (g.leaves.flatMap fun l => l.placement.toList).length =
    g.leaves.length * 16 :=
  length_flatMap_of_forall fun _ _ => rfl

end Geometry

end Arbor
