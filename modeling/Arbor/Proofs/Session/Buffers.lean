import Arbor.Proofs.Session.Operations
import Arbor.Recipe.Document
import Mathlib.Algebra.BigOperators.Fin

/-!
# Buffers of a session

The buffers that a session hands out have exactly the sizes that its counts call for, and their
indices point into the vertices that are handed out with them.  The reason is a chain of bounds
through all stages: a derived word has at most `Limits.ceiling` symbols, each segment is a drawn
move, each span of a branch is a segment, and a segment needs at most thirteen rings of sixteen
vertices.  These are fewer than `2 ^ 32`, so no cast to an index and no sum of two wraps
(`Tree.Measured.meshesOf?_eq_some`).
-/

namespace Arbor

open Mesh

/-! ## The meshes of a tree -/

/-- `meshesOf` with all its casts and sums checked. -/
def Session.meshesOf? (t : Tree) : Option (Mesh × Mesh) := do
  let blade ← Blade.mesh? 1
  return (← t.geometry.branchMesh? Branch.usualResolution Branch.usualSides,
    ← t.geometry.leafMesh? blade)

namespace Tree.Measured

variable {t : Tree} (h : t.Measured)

include h

lemma length_branches_le : t.geometry.branches.length ≤ t.trace.segments.length := by
  rw [← h.spans]
  exact h.spanned.length_branches_le

lemma tubeVertices_eq : t.geometry.tubeVertices Branch.usualResolution Branch.usualSides =
    16 * (12 * t.trace.segments.length + t.geometry.branches.length) := by
  have hsteps : max Branch.usualResolution 1 = 12 := rfl
  rw [Geometry.tubeVertices, h.spans, hsteps, Branch.usualSides]
  omega

/-- Thirteen rings of sixteen vertices for each symbol are few enough. -/
lemma tubeVertices_lt :
    t.geometry.tubeVertices Branch.usualResolution Branch.usualSides < 2 ^ 32 := by
  have hbranches := h.length_branches_le
  have hsegments := h.segments
  have hsymbols : t.symbolCount ≤ 16000000 := h.symbols
  rw [h.tubeVertices_eq]
  omega

lemma bladeVertices_lt : t.geometry.leaves.length * (Blade.mesh 1).vertices.size < 2 ^ 32 := by
  have hleaves := h.leaves
  have hsymbols : t.symbolCount ≤ 16000000 := h.symbols
  rw [Blade.mesh_vertices_size]
  omega

lemma meshesOf?_eq_some : Session.meshesOf? t = some (Session.meshesOf t) := by
  have hbranches := h.spanned.branchMesh?_eq_some (by decide) h.tubeVertices_lt
  have hleaves := Geometry.leafMesh?_eq_some (Blade.mesh_valid 1) h.bladeVertices_lt
  simp [Session.meshesOf?, Session.meshesOf, Blade.mesh?_eq_some, hbranches, hleaves]

lemma branchMesh_valid : (Session.meshesOf t).1.Valid :=
  h.spanned.branchMesh_valid (by decide) h.tubeVertices_lt

lemma branchMesh_vertices_size : (Session.meshesOf t).1.vertices.size =
    16 * (12 * t.trace.segments.length + t.geometry.branches.length) :=
  (h.spanned.branchMesh_vertices_size (by decide)).trans h.tubeVertices_eq

lemma branchMesh_indices_size : (Session.meshesOf t).1.indices.size =
    1152 * t.trace.segments.length := by
  have hsteps : max Branch.usualResolution 1 = 12 := rfl
  rw [Session.meshesOf, h.spanned.branchMesh_indices_size (by decide), h.spans, hsteps,
    Branch.usualSides]
  omega

lemma leafMesh_valid : (Session.meshesOf t).2.Valid :=
  Geometry.leafMesh_valid (Blade.mesh_valid 1) h.bladeVertices_lt

end Tree.Measured

namespace Session

lemma leafMesh_vertices_size (t : Tree) :
    (meshesOf t).2.vertices.size = 10 * t.geometry.leaves.length := by
  rw [meshesOf, Geometry.leafMesh_vertices_size, Blade.mesh_vertices_size, Nat.mul_comm]

lemma leafMesh_indices_size (t : Tree) :
    (meshesOf t).2.indices.size = 24 * t.geometry.leaves.length := by
  rw [meshesOf, Geometry.leafMesh_indices_size, Blade.mesh_indices_size, Nat.mul_comm]

/-! ## What is handed out -/

/-- The branches have four numbers for each knot. -/
lemma sum_length_branchPoints {s : Session} {t : Tree} (ht : s.tree = some t) :
    ∑ i ∈ Finset.range t.geometry.branches.length, (s.branchPoints i).length =
      4 * t.geometry.knotCount := by
  have hpoints : ∀ i : Fin t.geometry.branches.length, (s.branchPoints i).length =
      4 * t.geometry.branches[i.1].knots.length := by
    intro i
    have hi : s.branch? i = some t.geometry.branches[i.1] := by
      rw [branch?, ht]
      exact List.getElem?_eq_getElem i.2
    rw [branchPoints, hi, Option.elim_some, length_flatMap_of_forall (n := 4) fun _ _ => rfl,
      Nat.mul_comm]
  rw [Finset.sum_range, Finset.sum_congr rfl fun i _ => hpoints i,
    Fin.sum_univ_fun_getElem t.geometry.branches fun b => 4 * b.knots.length,
    List.sum_map_mul_left, Geometry.knotCount_eq_sum]

variable {read : String → Except Failure Recipe} {s : Session}

lemma Coherent.measured (h : s.Coherent) {t : Tree} (ht : s.tree = some t) : t.Measured := by
  obtain ⟨r, hr⟩ := h.grown t ht
  exact Recipe.measured_of_grow hr

/-- **The buffers fit together.**  In every session that operations lead to, the counts are bounded
by the number of symbols and this by the ceiling; each buffer has exactly the size that the counts
call for, and each index is below the number of vertices that are handed out with it.  The meshes
of the tree are the same when every cast to an index and every sum of two is checked, so none of
them wraps. -/
theorem buffers_fit (h : Reachable read s) :
    s.segmentCount ≤ s.symbolCount ∧ s.leafCount ≤ s.symbolCount ∧ s.symbolCount ≤ 16000000 ∧
      s.branchCount ≤ s.segmentCount ∧
      s.branchVertices.1.size = 128 * (12 * s.segmentCount + s.branchCount) ∧
      s.branchIndices.1.size = 1152 * s.segmentCount ∧
      (∀ i ∈ s.branchIndices.1, i.toNat < 16 * (12 * s.segmentCount + s.branchCount)) ∧
      s.leafVertices.1.size = 80 * s.leafCount ∧
      s.leafIndices.1.size = 24 * s.leafCount ∧
      (∀ i ∈ s.leafIndices.1, i.toNat < 10 * s.leafCount) ∧
      s.leafPlacements.length = 16 * s.leafCount ∧
      ∑ i ∈ Finset.range s.branchCount, (s.branchPoints i).length =
        4 * (s.segmentCount + s.branchCount) ∧
      ∀ t, s.tree = some t → meshesOf? t = some (meshesOf t) := by
  have hcoherent := h.coherent
  have hmeshes := hcoherent.withMeshes_eq
  cases ht : s.tree with
  | none =>
    simp [symbolCount, segmentCount, branchCount, leafCount, leafPlacements, branchVertices,
      branchIndices, leafVertices, leafIndices, hmeshes, ht]
  | some t =>
    have hm := hcoherent.measured ht
    have hknots := hm.spanned.knotCount_eq
    rw [hm.spans] at hknots
    simp only [symbolCount, segmentCount, branchCount, leafCount, leafPlacements, branchVertices,
      branchIndices, leafVertices, leafIndices, hmeshes, ht, Option.map_some, Option.elim_some]
    refine ⟨hm.segments, hm.leaves, hm.symbols, hm.length_branches_le, ?_,
      hm.branchMesh_indices_size, fun i hi => ?_, ?_, leafMesh_indices_size t, fun i hi => ?_, ?_,
      ?_, fun t' ht' => ?_⟩
    · rw [vertexData_size, hm.branchMesh_vertices_size]
      omega
    · rw [← hm.branchMesh_vertices_size]
      exact hm.branchMesh_valid.inRange i hi
    · rw [vertexData_size, leafMesh_vertices_size]
      omega
    · rw [← leafMesh_vertices_size]
      exact hm.leafMesh_valid.inRange i hi
    · rw [Geometry.length_placements, Nat.mul_comm]
    · rw [sum_length_branchPoints ht, hknots]
    · cases ht'
      exact hm.meshesOf?_eq_some

/-- Operations that fail before, between and behind a growth, with a buffer asked for twice. -/
theorem buffers_fit_forked : ∃ s, Reachable Recipe.ofDocument s ∧
    s.segmentCount = 3 ∧ s.branchCount = 3 ∧ s.leafCount = 1 ∧
    s.branchVertices.1.size = 4992 ∧ s.branchIndices.1.size = 3456 ∧
    s.leafVertices.1.size = 80 ∧ s.leafIndices.1.size = 24 ∧ s.tree.isSome = true := by
  let ops : List Operation :=
    [.setIterations (-1), .setAxiom "F[F]X", .setRules "X:F", .setIterations 1, .grow,
      .branchVertices, .setAxiom "", .grow, .branchVertices]
  have hcounts : (run Recipe.ofDocument ops).segmentCount = 3 ∧
      (run Recipe.ofDocument ops).branchCount = 3 ∧ (run Recipe.ofDocument ops).leafCount = 1 ∧
        (run Recipe.ofDocument ops).tree.isSome = true := by
    decide +kernel
  obtain ⟨hsegments, hbranches, hleaves, htree⟩ := hcounts
  have hreach : Reachable Recipe.ofDocument (run Recipe.ofDocument ops) := ⟨ops, rfl⟩
  obtain ⟨-, -, -, -, hvertices, hindices, -, hblades, hcorners, -⟩ := buffers_fit hreach
  rw [hsegments, hbranches] at hvertices
  rw [hsegments] at hindices
  rw [hleaves] at hblades hcorners
  exact ⟨_, hreach, hsegments, hbranches, hleaves, hvertices, hindices, hblades, hcorners, htree⟩

end Session

end Arbor
