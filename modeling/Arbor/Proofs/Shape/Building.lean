import Arbor.Proofs.Shape.Drawing
import Arbor.Proofs.Shape.Triangles

/-!
# Building meshes

A mesh is built by edits from the empty mesh.  An edit that `Fits` keeps the mesh valid as long as
fewer than `2 ^ 32` vertices come together (`Edit.Fits.valid`), so a mesh is valid throughout its
building (`valid_build_take`).

Merging is putting together: what a merged mesh draws, each triangle read as its three vertices, is
what the first mesh draws followed by what the second one draws (`triangles_merge`), and so for the
tubes of all branches and the blades of all leaves (`triangles_branchMesh`, `triangles_leafMesh`).
-/

namespace Arbor

namespace Mesh

/-! ## Edits -/

/-- One step of building a mesh. -/
inductive Edit where
  | addVertices (vs : List Vertex)
  | addTriangle (a b c : UInt32)
  | addQuad (a b c d : UInt32)
  | merge (n : Mesh)
  /-- Merging a copy of the mesh itself. -/
  | double
  /-- The quadrilaterals between two rings of `segments` vertices each. -/
  | connect (first second : UInt32) (segments : ℕ)
  | transform (t : Transform)

namespace Edit

/-- The mesh after an edit. -/
def apply (m : Mesh) : Edit → Mesh
  | addVertices vs => m.addVertices vs
  | addTriangle a b c => m.addTriangle a b c
  | addQuad a b c d => m.addQuad a b c d
  | merge n => m.merge n
  | double => m.merge m
  | connect first second segments => m.addIndices (band first second segments)
  | transform t => m.transformed t

/-- The edit names vertices of the mesh only, and merges a valid mesh only. -/
def Fits (m : Mesh) : Edit → Prop
  | addVertices _ => True
  | addTriangle a b c => ∀ i ∈ [a, b, c], i.toNat < m.vertices.size
  | addQuad a b c d => ∀ i ∈ [a, b, c, d], i.toNat < m.vertices.size
  | merge n => n.Valid
  | double => True
  | connect first second segments =>
    first.toNat + segments ≤ m.vertices.size ∧ second.toNat + segments ≤ m.vertices.size
  | transform _ => True

end Edit

/-- Every edit fits when its turn comes. -/
def AllFit (m : Mesh) : List Edit → Prop
  | [] => True
  | e :: es => e.Fits m ∧ AllFit (e.apply m) es

/-- The mesh after some edits. -/
def build (m : Mesh) (es : List Edit) : Mesh := es.foldl Edit.apply m

variable {m n : Mesh}

lemma addVertices_size (m : Mesh) (vs : List Vertex) :
    (m.addVertices vs).vertices.size = m.vertices.size + vs.length := by
  rw [addVertices, ← Array.length_toList, Array.toList_appendList, List.length_append,
    Array.length_toList]

lemma addIndices_toList (m : Mesh) (is : List UInt32) :
    (m.addIndices is).indices.toList = m.indices.toList ++ is := Array.toList_appendList

lemma Valid.addVertices (h : m.Valid) (vs : List Vertex) : (m.addVertices vs).Valid where
  whole := h.whole
  inRange := by
    intro i hi
    rw [addVertices_size]
    exact Nat.lt_add_right _ (h.inRange i hi)

lemma Valid.addIndices (h : m.Valid) {is : List UInt32} (hwhole : 3 ∣ is.length)
    (hrange : ∀ i ∈ is, i.toNat < m.vertices.size) : (m.addIndices is).Valid where
  whole := by
    rw [← Array.length_toList, addIndices_toList, List.length_append, Array.length_toList]
    exact Nat.dvd_add h.whole hwhole
  inRange := by
    intro i hi
    rw [← Array.mem_toList_iff, addIndices_toList, List.mem_append, Array.mem_toList_iff] at hi
    rcases hi with hi | hi
    · exact h.inRange i hi
    · exact hrange i hi

namespace Edit

/-- No edit takes vertices away. -/
lemma size_le (m : Mesh) (e : Edit) : m.vertices.size ≤ (e.apply m).vertices.size := by
  cases e with
  | addVertices vs => exact (Nat.le_add_right _ _).trans (addVertices_size m vs).ge
  | addTriangle a b c => exact le_rfl
  | addQuad a b c d => exact le_rfl
  | merge n => exact (Nat.le_add_right _ _).trans (merge_vertices_size m n).ge
  | double => exact (Nat.le_add_right _ _).trans (merge_vertices_size m m).ge
  | connect first second segments => exact le_rfl
  | transform t => exact (transformed_vertices_size m t).ge

/-- **Step.** An edit that fits keeps the mesh valid. -/
lemma Fits.valid {e : Edit} (h : e.Fits m) (hm : m.Valid)
    (hsize : (e.apply m).vertices.size < 2 ^ 32) : (e.apply m).Valid := by
  cases e with
  | addVertices vs => exact hm.addVertices vs
  | addTriangle a b c => exact hm.addIndices ⟨1, rfl⟩ h
  | addQuad a b c d => exact hm.addIndices ⟨2, rfl⟩ fun i hi => h i (by simp [quad] at hi ⊢; tauto)
  | merge n =>
    rw [apply, merge_vertices_size] at hsize
    exact hm.merge h hsize
  | double =>
    rw [apply, merge_vertices_size] at hsize
    exact hm.merge hm hsize
  | connect first second segments =>
    obtain ⟨hfirst, hsecond⟩ := h
    have hsize : m.vertices.size < 2 ^ 32 := hsize
    have hwhole : 3 ∣ (band first second segments).length := by
      rw [length_band]
      omega
    refine hm.addIndices hwhole fun x hx => ?_
    obtain ⟨i, hi, hx⟩ := exists_of_mem_band hx
    have hplace : i.toUInt32.toNat = i := toNat_toUInt32 (by omega)
    rcases hx with rfl | rfl
    · rw [toNat_add (by omega)]
      omega
    · rw [toNat_add (by omega)]
      omega
  | transform t => exact hm.transformed t

end Edit

lemma size_le_build (m : Mesh) (es : List Edit) : m.vertices.size ≤ (build m es).vertices.size := by
  induction es generalizing m with
  | nil => exact le_rfl
  | cons e es ih => exact (e.size_le m).trans (ih (e.apply m))

/-- **Run.** A valid mesh stays valid while edits fit. -/
lemma AllFit.valid {es : List Edit} (h : AllFit m es) (hm : m.Valid)
    (hsize : (build m es).vertices.size < 2 ^ 32) : (build m es).Valid := by
  induction es generalizing m with
  | nil => exact hm
  | cons e es ih =>
    obtain ⟨he, hes⟩ := h
    have hstep : (e.apply m).vertices.size < 2 ^ 32 :=
      (size_le_build (e.apply m) es).trans_lt hsize
    exact ih hes (he.valid hm hstep) hsize

lemma AllFit.take {es : List Edit} (h : AllFit m es) (k : ℕ) : AllFit m (es.take k) := by
  induction es generalizing m k with
  | nil => rwa [List.take_nil]
  | cons e es ih =>
    cases k with
    | zero => exact trivial
    | succ k => exact ⟨h.1, ih h.2 k⟩

lemma size_build_take_le (m : Mesh) (es : List Edit) (k : ℕ) :
    (build m (es.take k)).vertices.size ≤ (build m es).vertices.size := by
  have hsplit : build m es = build (build m (es.take k)) (es.drop k) := by
    rw [build, build, build, ← List.foldl_append, List.take_append_drop]
  rw [hsplit]
  exact size_le_build _ _

/-- A mesh is valid throughout its building. -/
lemma valid_build_take {es : List Edit} (h : AllFit .empty es)
    (hsize : (build .empty es).vertices.size < 2 ^ 32) (k : ℕ) : (build .empty (es.take k)).Valid :=
  (h.take k).valid valid_empty ((size_build_take_le _ es k).trans_lt hsize)

/-! ## What a mesh draws -/

/-- The three vertices that a triangle names, if they are there. -/
def corners (vs : Array Vertex) : ℕ × ℕ × ℕ → Option (Vertex × Vertex × Vertex) :=
  fun (a, b, c) => do return (← vs[a]?, ← vs[b]?, ← vs[c]?)

/-- The triangles of a mesh, each as its three vertices. -/
def triangles (m : Mesh) : List (Option (Vertex × Vertex × Vertex)) :=
  m.triples.map (corners m.vertices)

lemma length_triangles (m : Mesh) : m.triangles.length = m.triangleCount := by
  rw [triangles, List.length_map, length_triples]

lemma Valid.lt_of_mem_triples (h : m.Valid) {a b c : ℕ} (ht : (a, b, c) ∈ m.triples) :
    a < m.vertices.size ∧ b < m.vertices.size ∧ c < m.vertices.size := by
  have hlt : ∀ i ∈ m.indices.toList.map UInt32.toNat, i < m.vertices.size := by
    intro i hi
    obtain ⟨j, hj, rfl⟩ := List.mem_map.mp hi
    exact h.inRange j (Array.mem_toList_iff.mp hj)
  obtain ⟨ha, hb, hc⟩ := mem_of_mem_triplesOf ht
  exact ⟨hlt a ha, hlt b hb, hlt c hc⟩

/-- A valid mesh draws all of its triangles. -/
lemma Valid.isSome_of_mem_triangles (h : m.Valid) : ∀ t ∈ m.triangles, t.isSome := by
  intro t ht
  obtain ⟨⟨a, b, c⟩, hmem, rfl⟩ := List.mem_map.mp ht
  obtain ⟨ha, hb, hc⟩ := h.lt_of_mem_triples hmem
  simp [corners, ha, hb, hc]

/-- The triangle behind `n` more vertices. -/
def behind (n : ℕ) : ℕ × ℕ × ℕ → ℕ × ℕ × ℕ := fun (a, b, c) => (a + n, b + n, c + n)

lemma triples_merge (hm : m.Valid) (hn : n.Valid)
    (h : m.vertices.size + n.vertices.size < 2 ^ 32) :
    (m.merge n).triples = m.triples ++ n.triples.map (behind m.vertices.size) := by
  have hwhole : 3 ∣ (m.indices.toList.map UInt32.toNat).length := by
    rw [List.length_map, Array.length_toList]
    exact hm.whole
  have hshift : (n.indices.toList.map (· + m.next)).map UInt32.toNat =
      (n.indices.toList.map UInt32.toNat).map (· + m.vertices.size) := by
    rw [List.map_map, List.map_map]
    refine List.map_congr_left fun i hi => ?_
    have hlt := hn.add_next_lt h (Array.mem_toList_iff.mp hi)
    have hnext : m.next.toNat = m.vertices.size := toNat_toUInt32 (by omega)
    rw [Function.comp_apply, toNat_add (by omega), hnext]
    rfl
  rw [triples, merge, Array.toList_append, Array.toList_map, List.map_append, hshift,
    triplesOf_append hwhole, triplesOf_map (· + m.vertices.size)]
  rfl

/-- Merging puts drawings together. -/
lemma triangles_merge (hm : m.Valid) (hn : n.Valid)
    (h : m.vertices.size + n.vertices.size < 2 ^ 32) :
    (m.merge n).triangles = m.triangles ++ n.triangles := by
  rw [triangles, triples_merge hm hn h, List.map_append, List.map_map]
  congr 1
  · refine List.map_congr_left fun (a, b, c) ht => ?_
    obtain ⟨ha, hb, hc⟩ := hm.lt_of_mem_triples ht
    simp only [corners, merge, Array.getElem?_append_left, ha, hb, hc]
  · refine List.map_congr_left fun (a, b, c) ht => ?_
    have hback : ∀ i, (m.vertices ++ n.vertices)[i + m.vertices.size]? = n.vertices[i]? := by
      intro i
      rw [Array.getElem?_append_right (Nat.le_add_left _ _), Nat.add_sub_cancel]
    simp only [Function.comp_apply, corners, behind, merge, hback]

/-! ## The algebra of merging -/

lemma merge_indices (a b : Mesh) :
    (a.merge b).indices = a.indices ++ b.indices.map (· + a.next) := rfl

lemma merge_next (a b : Mesh) : (a.merge b).next = b.next + a.next := by
  rw [next, merge_vertices_size, Nat.add_comm]
  exact UInt32.ofNat_add ..

lemma merge_assoc (a b c : Mesh) : (a.merge b).merge c = a.merge (b.merge c) := by
  have hshift : c.indices.map (· + (b.next + a.next)) =
      (c.indices.map (· + b.next)).map (· + a.next) := by
    rw [Array.map_map]
    exact Array.map_congr_left fun i _ => (UInt32.add_assoc i b.next a.next).symm
  refine Mesh.mk.injEq .. |>.mpr ⟨Array.append_assoc, ?_⟩
  rw [merge_indices, merge_indices, merge_next, hshift, Array.map_append, Array.append_assoc]

lemma empty_merge (m : Mesh) : empty.merge m = m := by
  refine Mesh.mk.injEq .. |>.mpr ⟨Array.empty_append, ?_⟩
  have hzero : m.indices.map (· + empty.next) = m.indices.map id :=
    Array.map_congr_left fun i _ => UInt32.add_zero i
  rw [hzero, Array.map_id]
  exact Array.empty_append

lemma merge_empty (m : Mesh) : m.merge empty = m := by simp [merge, empty]

lemma transformed_merge (a b : Mesh) (t : Transform) :
    (a.merge b).transformed t = (a.transformed t).merge (b.transformed t) := by
  simp [transformed, merge, next]

/-- The places of the vertices in a texture. -/
def coordinates (m : Mesh) : Array (Float32 × Float32) := m.vertices.map fun x => (x.u, x.v)

lemma coordinates_transformed (m : Mesh) (t : Transform) :
    (m.transformed t).coordinates = m.coordinates := by
  simp only [coordinates, transformed, Array.map_map]
  rfl

/-! ## Many meshes -/

section Many

variable {α : Type} {f : α → Mesh} {xs : List α}

lemma triangles_foldl_merge (hm : m.Valid) (hf : ∀ x ∈ xs, (f x).Valid)
    (h : m.vertices.size + totalVertices f xs < 2 ^ 32) :
    (xs.foldl (fun m x => m.merge (f x)) m).triangles =
      m.triangles ++ xs.flatMap fun x => (f x).triangles := by
  induction xs generalizing m with
  | nil => exact (List.append_nil _).symm
  | cons x xs ih =>
    have hx := hf x List.mem_cons_self
    rw [totalVertices, List.map_cons, List.sum_cons, ← totalVertices] at h
    have hstep : (m.merge (f x)).Valid := hm.merge hx (by omega)
    rw [List.foldl_cons, ih hstep (fun y hy => hf y (List.mem_cons_of_mem x hy))
      (by rw [merge_vertices_size]; omega), triangles_merge hm hx (by omega), List.flatMap_cons,
      List.append_assoc]

lemma triangles_mergeAll (hf : ∀ x ∈ xs, (f x).Valid) (h : totalVertices f xs < 2 ^ 32) :
    (mergeAll f xs).triangles = xs.flatMap fun x => (f x).triangles :=
  triangles_foldl_merge valid_empty hf
    (by rwa [show empty.vertices.size = 0 from rfl, Nat.zero_add])

end Many

end Mesh

open Mesh

/-- A tube of fewer than `2 ^ 32` vertices is valid, also where it is empty. -/
lemma Branch.toMesh_valid_of_size {b : Branch} {resolution sides : ℕ}
    (h : (b.toMesh resolution sides).vertices.size < 2 ^ 32) :
    (b.toMesh resolution sides).Valid := by
  by_cases hsmall : (b.sample resolution).length < 2 ∨ sides < 3
  · rw [toMesh, if_pos hsmall]
    exact valid_empty
  · rw [toMesh, if_neg hsmall, List.size_toArray, length_flatten_rings] at h
    exact toMesh_valid h

namespace Geometry

variable {g : Geometry} {resolution sides : ℕ} {blade : Mesh}

lemma triangles_branchMesh
    (h : totalVertices (fun b => Branch.toMesh b resolution sides) g.branches < 2 ^ 32) :
    (g.branchMesh resolution sides).triangles =
      g.branches.flatMap fun b => (b.toMesh resolution sides).triangles := by
  refine triangles_mergeAll (fun b hb => Branch.toMesh_valid_of_size ?_) h
  exact (List.le_sum_of_mem (List.mem_map_of_mem hb)).trans_lt h

lemma triangles_leafMesh (hblade : blade.Valid)
    (h : g.leaves.length * blade.vertices.size < 2 ^ 32) :
    (g.leafMesh blade).triangles =
      g.leaves.flatMap fun l => (blade.transformed l.placement).triangles := by
  refine triangles_mergeAll (fun l _ => hblade.transformed l.placement) ?_
  rwa [totalVertices_leaves]

end Geometry

namespace Mesh

/-- **Building and merging.** A mesh that is built from nothing by edits that fit is valid
throughout, as long as it ends with fewer than `2 ^ 32` vertices.  Merging two valid meshes draws
the triangles of the first and then those of the second, and is associative with the empty mesh as
its identity; a transform moves each part of a merged mesh by itself, and leaves the indices and the
places in the texture alone.  So the mesh of a geometry draws the tubes of its branches one after
the other, and the mesh of its leaves their blades. -/
theorem drawn_by_parts :
    (∀ es, AllFit .empty es → (build .empty es).vertices.size < 2 ^ 32 →
      ∀ k, (build .empty (es.take k)).Valid) ∧
    (∀ a b : Mesh, a.Valid → b.Valid → a.vertices.size + b.vertices.size < 2 ^ 32 →
      (a.merge b).triangles = a.triangles ++ b.triangles ∧
        (a.merge b).triangles.length = (a.merge b).triangleCount ∧
        ∀ t ∈ (a.merge b).triangles, t.isSome) ∧
    (∀ a b c : Mesh, (a.merge b).merge c = a.merge (b.merge c)) ∧
    (∀ a : Mesh, empty.merge a = a ∧ a.merge empty = a) ∧
    (∀ (a b : Mesh) (t : Transform),
      (a.merge b).transformed t = (a.transformed t).merge (b.transformed t) ∧
        (a.transformed t).indices = a.indices ∧
        (a.transformed t).coordinates = a.coordinates) ∧
    (∀ (g : Geometry) (resolution sides : ℕ),
      totalVertices (fun b => Branch.toMesh b resolution sides) g.branches < 2 ^ 32 →
        (g.branchMesh resolution sides).triangles =
          g.branches.flatMap fun b => (b.toMesh resolution sides).triangles) ∧
    (∀ (g : Geometry) (blade : Mesh), blade.Valid →
      g.leaves.length * blade.vertices.size < 2 ^ 32 →
        (g.leafMesh blade).triangles =
          g.leaves.flatMap fun l => (blade.transformed l.placement).triangles) := by
  refine ⟨fun es h hsize k => valid_build_take h hsize k, fun a b ha hb h => ?_, merge_assoc,
    fun a => ⟨empty_merge a, merge_empty a⟩, fun a b t => ?_,
    fun g resolution sides h => Geometry.triangles_branchMesh h,
    fun g blade hblade h => Geometry.triangles_leafMesh hblade h⟩
  · exact ⟨triangles_merge ha hb h, length_triangles _, (ha.merge hb h).isSome_of_mem_triangles⟩
  · exact ⟨transformed_merge a b t, transformed_indices a t, coordinates_transformed a t⟩

/-- Two copies of a triangle that are joined by a band, with a blade beside them. -/
def scaffold : List Edit :=
  [.addVertices [⟨.zero, .unitZ, 0, 0⟩, ⟨.unitX, .unitZ, 1, 0⟩, ⟨.unitY, .unitZ, 0, 1⟩],
    .addTriangle 0 1 2, .double, .connect 0 3 3, .merge (Blade.mesh 1), .addQuad 0 1 4 3,
    .transform (.shift .unitZ)]

/-- A rod that is drawn twice, with two leaves. -/
def rods : Geometry where
  branches := [.ofSamples [⟨.zero, 1⟩, ⟨.unitZ, 1⟩] 0 1, .ofSamples [⟨.unitZ, 1⟩, ⟨.zero, 1⟩] 0 1]
  leaves := [⟨.zero, .identity, 1, 0⟩, ⟨.unitZ, .identity, 2, 1⟩]

theorem drawn_by_parts_scaffold : AllFit .empty scaffold ∧
    (build .empty scaffold).vertices.size = 16 ∧ (build .empty scaffold).Valid ∧
    ((build .empty scaffold).merge (Blade.mesh 1)).triangles =
      (build .empty scaffold).triangles ++ (Blade.mesh 1).triangles ∧
    (rods.branchMesh 1 3).triangles =
      rods.branches.flatMap (fun b => (b.toMesh 1 3).triangles) ∧
    (rods.leafMesh (Blade.mesh 1)).triangles =
      rods.leaves.flatMap fun l => ((Blade.mesh 1).transformed l.placement).triangles := by
  obtain ⟨hbuild, hmerge, -, -, -, hbranches, hleaves⟩ := drawn_by_parts
  have hsize : (build .empty scaffold).vertices.size = 16 :=
    (transformed_vertices_size _ _).trans (by decide)
  have hfit : AllFit .empty scaffold := by
    refine ⟨trivial, ?_, trivial, ?_, Blade.mesh_valid 1, ?_, trivial, trivial⟩
    -- one vertex after the other: deciding for all numbers in a list would try all numbers
    all_goals
      simp only [Edit.Fits, List.forall_mem_cons, List.not_mem_nil, false_imp_iff, implies_true]
      decide
  have hvalid : (build .empty scaffold).Valid := hbuild scaffold hfit (by rw [hsize]; decide) 7
  have hspanned : rods.Spanned := by
    unfold Geometry.Spanned
    decide
  have htubes : totalVertices (fun b => Branch.toMesh b 1 3) rods.branches = 12 :=
    hspanned.totalVertices_eq le_rfl
  exact ⟨hfit, hsize, hvalid,
    (hmerge _ _ hvalid (Blade.mesh_valid 1) (by rw [hsize, Blade.mesh_vertices_size]; decide)).1,
    hbranches rods 1 3 (by rw [htubes]; decide), hleaves rods _ (Blade.mesh_valid 1) (by decide)⟩

end Mesh

end Arbor
