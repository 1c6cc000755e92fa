import Arbor.Shape.Geometry
import Mathlib.Algebra.Order.Ring.Nat

/-!
# Merged meshes

A mesh is `Valid` if it has whole triangles whose corners are all among its vertices.  Its indices
are 32-bit words, so a cast to an index or a sum of two indices may wrap.  Each build of indices
here has a checked twin that gives nothing as soon as one cast or one sum would: `index?`, `add?`
and `merge?`.

Merging valid meshes gives a valid mesh, and the checked twin agrees with the build, as long as
fewer than `2 ^ 32` vertices come together (`Valid.merge`, `merge?_eq_some`); the same holds for any
number of meshes that are merged in order (`mergeAll_valid`, `mergeAll?_eq_some`).
-/

namespace Arbor.Mesh

/-- Whole triangles between the vertices of the mesh. -/
structure Valid (m : Mesh) : Prop where
  whole : 3 ∣ m.indices.size
  inRange : ∀ i ∈ m.indices, i.toNat < m.vertices.size

lemma valid_empty : empty.Valid := ⟨⟨0, rfl⟩, by simp [empty]⟩

/-! ## Sizes -/

@[simp] lemma merge_vertices_size (m n : Mesh) :
    (m.merge n).vertices.size = m.vertices.size + n.vertices.size := by simp [merge]

@[simp] lemma merge_indices_size (m n : Mesh) :
    (m.merge n).indices.size = m.indices.size + n.indices.size := by simp [merge]

@[simp] lemma transformed_vertices_size (m : Mesh) (t : Transform) :
    (m.transformed t).vertices.size = m.vertices.size := by simp [transformed]

@[simp] lemma transformed_indices (m : Mesh) (t : Transform) :
    (m.transformed t).indices = m.indices := rfl

/-- Every vertex has eight numbers in the buffer. -/
lemma vertexData_size (m : Mesh) : m.vertexData.size = 8 * m.vertices.size := by
  have hfold : ∀ (vs : List Vertex) (data : Array Float32),
      (vs.foldl (fun data a => data.appendList a.toList) data).size =
        data.size + 8 * vs.length := by
    intro vs
    induction vs with
    | nil => intro data; simp
    | cons a vs ih =>
      intro data
      rw [List.foldl_cons, ih, List.length_cons]
      simp [Vertex.toList]
      omega
  rw [vertexData, ← Array.foldl_toList, hfold]
  simp

/-! ## Checked indices -/

/-- The index that a number is cast to, if the cast is exact. -/
def index? (n : Nat) : Option UInt32 := if n < 2 ^ 32 then some n.toUInt32 else none

/-- The sum of two indices, if it does not wrap. -/
def add? (a b : UInt32) : Option UInt32 :=
  if a.toNat + b.toNat < 2 ^ 32 then some (a + b) else none

lemma index?_eq_some {n : Nat} (h : n < 2 ^ 32) : index? n = some n.toUInt32 := if_pos h

lemma add?_eq_some {a b : UInt32} (h : a.toNat + b.toNat < 2 ^ 32) : add? a b = some (a + b) :=
  if_pos h

example : index? (2 ^ 32) = none ∧ add? 0xffffffff 1 = none := by decide

lemma toNat_toUInt32 {n : Nat} (h : n < 2 ^ 32) : n.toUInt32.toNat = n :=
  UInt32.toNat_ofNat_of_lt' h

lemma toNat_add {a b : UInt32} (h : a.toNat + b.toNat < 2 ^ 32) :
    (a + b).toNat = a.toNat + b.toNat := by
  rw [UInt32.toNat_add, Nat.mod_eq_of_lt h]

/-- A list of results that are all there. -/
lemma mapM_eq_some {α β : Type} {f? : α → Option β} {f : α → β} {xs : List α}
    (h : ∀ x ∈ xs, f? x = some (f x)) : xs.mapM f? = some (xs.map f) := by
  induction xs with
  | nil => rfl
  | cons x xs ih =>
    have hx := h x List.mem_cons_self
    have hxs := ih fun y hy => h y (List.mem_cons_of_mem x hy)
    simp [List.mapM_cons, hx, hxs]

/-! ## Two meshes -/

/-- `merge` with its cast and its sums checked. -/
def merge? (m n : Mesh) : Option Mesh := do
  let offset ← index? m.vertices.size
  let shifted ← n.indices.toList.mapM (add? · offset)
  return ⟨m.vertices ++ n.vertices, m.indices ++ shifted.toArray⟩

variable {m n : Mesh}

/-- An index of the second mesh, behind the vertices of the first. -/
lemma Valid.add_next_lt (hn : n.Valid) (h : m.vertices.size + n.vertices.size < 2 ^ 32) {i : UInt32}
    (hi : i ∈ n.indices) : i.toNat + m.next.toNat < m.vertices.size + n.vertices.size := by
  have hlt := hn.inRange i hi
  rw [next, toNat_toUInt32 (by omega)]
  omega

lemma Valid.merge (hm : m.Valid) (hn : n.Valid) (h : m.vertices.size + n.vertices.size < 2 ^ 32) :
    (m.merge n).Valid where
  whole := by
    rw [merge_indices_size]
    exact Nat.dvd_add hm.whole hn.whole
  inRange := by
    intro i hi
    rw [merge_vertices_size]
    rcases Array.mem_append.mp hi with hi | hi
    · exact Nat.lt_add_right _ (hm.inRange i hi)
    · obtain ⟨j, hj, rfl⟩ := Array.mem_map.mp hi
      have hlt := hn.add_next_lt h hj
      rw [toNat_add (Nat.lt_trans hlt h)]
      exact hlt

lemma merge?_eq_some (hn : n.Valid) (h : m.vertices.size + n.vertices.size < 2 ^ 32) :
    m.merge? n = some (m.merge n) := by
  have hoffset : index? m.vertices.size = some m.next := index?_eq_some (by omega)
  have hshifted : n.indices.toList.mapM (add? · m.next) =
      some (n.indices.toList.map (· + m.next)) := by
    refine mapM_eq_some fun i hi => add?_eq_some ?_
    exact Nat.lt_trans (hn.add_next_lt h (Array.mem_toList_iff.mp hi)) h
  simp [merge?, merge, hoffset, hshifted, ← List.map_toArray]

lemma Valid.transformed (hm : m.Valid) (t : Transform) : (m.transformed t).Valid where
  whole := hm.whole
  inRange := by
    rw [transformed_indices, transformed_vertices_size]
    exact hm.inRange

/-! ## Many meshes -/

section Many

variable {α : Type} (f : α → Mesh) (f? : α → Option Mesh) (xs : List α)

/-- A mesh for every entry of a list, merged in order. -/
def mergeAll : Mesh := xs.foldl (fun m x => m.merge (f x)) .empty

/-- `mergeAll` with its casts and sums checked, of meshes that are checked in turn. -/
def mergeAll? : Option Mesh := xs.foldlM (fun m x => do m.merge? (← f? x)) .empty

/-- The number of vertices that come together. -/
def totalVertices : Nat := (xs.map fun x => (f x).vertices.size).sum

/-- A size that adds up over two meshes adds up over all. -/
lemma foldl_merge_size (size : Mesh → Nat) (hsize : ∀ m n, size (m.merge n) = size m + size n)
    (m : Mesh) : size (xs.foldl (fun m x => m.merge (f x)) m) =
      size m + (xs.map fun x => size (f x)).sum := by
  induction xs generalizing m with
  | nil => rfl
  | cons x xs ih => rw [List.foldl_cons, ih, hsize, List.map_cons, List.sum_cons, Nat.add_assoc]

lemma mergeAll_vertices_size : (mergeAll f xs).vertices.size = totalVertices f xs := by
  have hsum := foldl_merge_size f xs (fun m => m.vertices.size) merge_vertices_size .empty
  exact hsum.trans (Nat.zero_add _)

lemma mergeAll_indices_size :
    (mergeAll f xs).indices.size = (xs.map fun x => (f x).indices.size).sum := by
  have hsum := foldl_merge_size f xs (fun m => m.indices.size) merge_indices_size .empty
  exact hsum.trans (Nat.zero_add _)

variable {f f? xs}

lemma foldl_merge_valid {m : Mesh} (hm : m.Valid) (hf : ∀ x ∈ xs, (f x).Valid)
    (h : m.vertices.size + totalVertices f xs < 2 ^ 32) :
    (xs.foldl (fun m x => m.merge (f x)) m).Valid := by
  induction xs generalizing m with
  | nil => exact hm
  | cons x xs ih =>
    rw [totalVertices, List.map_cons, List.sum_cons, ← totalVertices] at h
    refine ih (hm.merge (hf x List.mem_cons_self) (by omega))
      (fun y hy => hf y (List.mem_cons_of_mem x hy)) ?_
    rw [merge_vertices_size]
    omega

lemma foldlM_merge?_eq_some {m : Mesh} (hf : ∀ x ∈ xs, (f x).Valid)
    (hf? : ∀ x ∈ xs, f? x = some (f x)) (h : m.vertices.size + totalVertices f xs < 2 ^ 32) :
    xs.foldlM (fun m x => do m.merge? (← f? x)) m =
      some (xs.foldl (fun m x => m.merge (f x)) m) := by
  induction xs generalizing m with
  | nil => rfl
  | cons x xs ih =>
    rw [totalVertices, List.map_cons, List.sum_cons, ← totalVertices] at h
    have hstep := merge?_eq_some (m := m) (hf x List.mem_cons_self) (by omega)
    have hrest := ih (m := m.merge (f x)) (fun y hy => hf y (List.mem_cons_of_mem x hy))
      (fun y hy => hf? y (List.mem_cons_of_mem x hy)) (by rw [merge_vertices_size]; omega)
    rw [List.foldlM_cons, hf? x List.mem_cons_self, List.foldl_cons, ← hrest]
    simp [hstep]

lemma mergeAll_valid (hf : ∀ x ∈ xs, (f x).Valid) (h : totalVertices f xs < 2 ^ 32) :
    (mergeAll f xs).Valid :=
  foldl_merge_valid valid_empty hf (by rwa [show empty.vertices.size = 0 from rfl, Nat.zero_add])

lemma mergeAll?_eq_some (hf : ∀ x ∈ xs, (f x).Valid) (hf? : ∀ x ∈ xs, f? x = some (f x))
    (h : totalVertices f xs < 2 ^ 32) : mergeAll? f? xs = some (mergeAll f xs) :=
  foldlM_merge?_eq_some hf hf? (by rwa [show empty.vertices.size = 0 from rfl, Nat.zero_add])

end Many

end Arbor.Mesh
