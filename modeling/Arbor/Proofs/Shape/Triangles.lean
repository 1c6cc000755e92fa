import Arbor.Shape.Mesh
import Mathlib.Algebra.Order.Ring.Nat

/-!
# Triangles and edges

The triangles of a mesh, three indices at a time (`triples`), and the directed edges that go around
them (`edges`).  Three at a time is a cut that only commutes with putting lists together if the
lists are whole triangles (`triplesOf_append`).
-/

namespace Arbor.Mesh

section Lists

variable {α β : Type}

/-- The entries of a list, three at a time; one or two that are left over are dropped. -/
def triplesOf : List α → List (α × α × α)
  | a :: b :: c :: rest => (a, b, c) :: triplesOf rest
  | _ => []

lemma triplesOf_of_length_lt {xs : List α} (h : xs.length < 3) : triplesOf xs = [] := by
  rcases xs with _ | ⟨a, _ | ⟨b, _ | ⟨c, rest⟩⟩⟩
  · rfl
  · rfl
  · rfl
  · simp only [List.length_cons] at h
    omega

/-- A list is cut until fewer than three entries are left. -/
lemma triples_induction {motive : List α → Prop} (short : ∀ xs, xs.length < 3 → motive xs)
    (cut : ∀ a b c rest, motive rest → motive (a :: b :: c :: rest)) (xs : List α) : motive xs := by
  induction xs using triplesOf.induct with
  | case1 a b c rest ih => exact cut a b c rest ih
  | case2 xs hshort =>
    refine short xs (Nat.lt_of_not_le fun hlong => ?_)
    rcases xs with _ | ⟨a, _ | ⟨b, _ | ⟨c, rest⟩⟩⟩
    · simp at hlong
    · simp at hlong
    · simp at hlong
    · exact hshort a b c rest rfl

lemma triplesOf_append {xs : List α} (h : 3 ∣ xs.length) (ys : List α) :
    triplesOf (xs ++ ys) = triplesOf xs ++ triplesOf ys := by
  induction xs using triples_induction with
  | short xs hshort =>
    have hnil : xs = [] := List.eq_nil_of_length_eq_zero (by omega)
    rw [hnil]
    rfl
  | cut a b c rest ih =>
    have hrest : 3 ∣ rest.length := by
      simp only [List.length_cons] at h
      omega
    simp only [List.cons_append, triplesOf, ih hrest]

lemma triplesOf_flatMap {f : β → List α} {xs : List β} (h : ∀ x ∈ xs, 3 ∣ (f x).length) :
    triplesOf (xs.flatMap f) = xs.flatMap fun x => triplesOf (f x) := by
  induction xs with
  | nil => rfl
  | cons x xs ih =>
    rw [List.flatMap_cons, triplesOf_append (h x List.mem_cons_self),
      ih fun y hy => h y (List.mem_cons_of_mem x hy), List.flatMap_cons]

lemma triplesOf_map (f : α → β) (xs : List α) :
    triplesOf (xs.map f) = (triplesOf xs).map fun (a, b, c) => (f a, f b, f c) := by
  induction xs using triples_induction with
  | short xs hshort =>
    rw [triplesOf_of_length_lt hshort, triplesOf_of_length_lt (by rwa [List.length_map]),
      List.map_nil]
  | cut a b c rest ih => simp only [List.map_cons, triplesOf, ih]

lemma length_triplesOf (xs : List α) : (triplesOf xs).length = xs.length / 3 := by
  induction xs using triples_induction with
  | short xs hshort =>
    rw [triplesOf_of_length_lt hshort, List.length_nil]
    omega
  | cut a b c rest ih =>
    simp only [triplesOf, List.length_cons, ih]
    omega

lemma mem_of_mem_triplesOf {xs : List α} {a b c : α} (h : (a, b, c) ∈ triplesOf xs) :
    a ∈ xs ∧ b ∈ xs ∧ c ∈ xs := by
  induction xs using triples_induction with
  | short xs hshort =>
    rw [triplesOf_of_length_lt hshort] at h
    simp at h
  | cut a' b' c' rest ih =>
    rw [triplesOf, List.mem_cons] at h
    rcases h with heq | h
    · simp only [Prod.mk.injEq] at heq
      simp [heq]
    · obtain ⟨ha, hb, hc⟩ := ih h
      simp [ha, hb, hc]

end Lists

/-- The triangles of a mesh, as the numbers of their corners. -/
def triples (m : Mesh) : List (ℕ × ℕ × ℕ) := triplesOf (m.indices.toList.map UInt32.toNat)

/-- The three edges of a triangle, in the order in which they go around it. -/
def edgesOf : ℕ × ℕ × ℕ → List (ℕ × ℕ) := fun (a, b, c) => [(a, b), (b, c), (c, a)]

/-- The directed edges of all triangles. -/
def edges (m : Mesh) : List (ℕ × ℕ) := m.triples.flatMap edgesOf

lemma length_triples (m : Mesh) : m.triples.length = m.triangleCount := by
  rw [triples, length_triplesOf, List.length_map, Array.length_toList, triangleCount]

lemma edges_of_mem_triples {m : Mesh} {a b c : ℕ} (h : (a, b, c) ∈ m.triples) :
    (a, b) ∈ m.edges ∧ (b, c) ∈ m.edges ∧ (c, a) ∈ m.edges := by
  have hedge : ∀ e ∈ edgesOf (a, b, c), e ∈ m.edges := fun e he =>
    List.mem_flatMap.mpr ⟨_, h, he⟩
  exact ⟨hedge _ (by simp [edgesOf]), hedge _ (by simp [edgesOf]), hedge _ (by simp [edgesOf])⟩

end Arbor.Mesh
