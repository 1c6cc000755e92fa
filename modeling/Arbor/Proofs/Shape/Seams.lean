import Arbor.Proofs.Shape.Grid
import Arbor.Proofs.Shape.Triangles
import Mathlib.Data.List.Nodup
import Mathlib.Data.List.ProdSigma

/-!
# The seams of a tube

A tube is an open cylinder whose triangles all go around in the same sense: each of its edges is
passed once in one direction and once in the other, apart from the edges of its two end rings
(`openTube_toMesh`).

The proof is about places rather than indices.  The two triangles at a place have six sides between
them (`Side`), and the places that a side goes from and to tell which side it is (`find_ends`).  So
no side is passed twice, and the side that could go the other way is known as well (`opposite`).
-/

namespace Arbor

open Mesh

/-! ## Open tubes -/

namespace Mesh

/-- The edges of the first and of the last ring, in the direction in which triangles pass them. -/
def rim (rings sides : ℕ) : List (ℕ × ℕ) :=
  (List.range sides).map (fun j => ((j + 1) % sides, j)) ++
    (List.range sides).map fun j =>
      ((rings - 1) * sides + j, (rings - 1) * sides + (j + 1) % sides)

/-- A consistently oriented cylinder without ends, made of rings of vertices. -/
structure OpenTube (m : Mesh) (rings sides : ℕ) : Prop where
  vertexCount : m.vertices.size = rings * sides
  triangleCount : m.triangleCount = 2 * (rings - 1) * sides
  /-- There is no rest behind the triangles. -/
  whole : m.indices.size = 3 * m.triangleCount
  /-- No triangle has a corner twice. -/
  distinct : ∀ a b c, (a, b, c) ∈ m.triples → a ≠ b ∧ b ≠ c ∧ c ≠ a
  /-- No directed edge is passed twice. -/
  once : m.edges.Nodup
  /-- An inner edge is passed once in the other direction. -/
  paired : ∀ e ∈ m.edges, e ∉ rim rings sides → m.edges.count e.swap = 1
  /-- An edge of an end ring is not passed in the other direction. -/
  bare : ∀ e ∈ rim rings sides, e ∈ m.edges ∧ e.swap ∉ m.edges
  /-- Every vertex is a corner. -/
  used : ∀ v < m.vertices.size, ∃ a b c, (a, b, c) ∈ m.triples ∧ (v = a ∨ v = b ∨ v = c)

end Mesh

namespace Seam

/-! ## Sides of triangles -/

/-- The place of a ring that comes after another. -/
def onward (sides j : ℕ) : ℕ := (j + 1) % sides

/-- The place of a ring that comes before another. -/
def before (sides j : ℕ) : ℕ := if j = 0 then sides - 1 else j - 1

/-- The sides of the two triangles at a place, in the order in which they are passed. -/
inductive Side where
  | rise
  | ahead
  | fall
  | climb
  | drop
  | back

/-- The ring and the place where a side goes from, and where it goes to. -/
def ends (sides : ℕ) : (ℕ × ℕ) × Side → (ℕ × ℕ) × (ℕ × ℕ)
  | ((i, j), .rise) => ((i, j), (i + 1, j))
  | ((i, j), .ahead) => ((i + 1, j), (i + 1, onward sides j))
  | ((i, j), .fall) => ((i + 1, onward sides j), (i, j))
  | ((i, j), .climb) => ((i, j), (i + 1, onward sides j))
  | ((i, j), .drop) => ((i + 1, onward sides j), (i, onward sides j))
  | ((i, j), .back) => ((i, onward sides j), (i, j))

/-- The only side that can go between two places. -/
def find (sides : ℕ) : (ℕ × ℕ) × (ℕ × ℕ) → (ℕ × ℕ) × Side
  | ((p, j), (q, k)) =>
    if p < q then ((p, j), if k = j then .rise else .climb)
    else if q < p then if k = j then ((q, before sides k), .drop) else ((q, k), .fall)
    else if k = onward sides j then ((p - 1, j), .ahead) else ((p, k), .back)

/-- The side that goes the other way, if there is one. -/
def opposite (sides : ℕ) : (ℕ × ℕ) × Side → (ℕ × ℕ) × Side
  | ((i, j), .rise) => ((i, before sides j), .drop)
  | ((i, j), .ahead) => ((i + 1, j), .back)
  | (p, .fall) => (p, .climb)
  | (p, .climb) => (p, .fall)
  | ((i, j), .drop) => ((i, onward sides j), .rise)
  | ((i, j), .back) => ((i - 1, j), .ahead)

/-- The side belongs to a triangle between two of `rings` rings. -/
structure Inside (rings sides : ℕ) (d : (ℕ × ℕ) × Side) : Prop where
  ring : d.1.1 + 1 < rings
  place : d.1.2 < sides

/-- The side lies in the first or in the last ring. -/
def OnRim (rings : ℕ) : (ℕ × ℕ) × Side → Prop
  | ((i, _), .back) => i = 0
  | ((i, _), .ahead) => i + 2 = rings
  | _ => False

variable {rings sides j : ℕ} {d : (ℕ × ℕ) × Side}

lemma onward_eq (hj : j < sides) : onward sides j = if j + 1 = sides then 0 else j + 1 := by
  unfold onward
  split_ifs with hlast
  · rw [hlast, Nat.mod_self]
  · exact Nat.mod_eq_of_lt (by omega)

lemma onward_lt (hj : j < sides) : onward sides j < sides := Nat.mod_lt _ (by omega)

lemma before_lt (hj : j < sides) : before sides j < sides := by
  unfold before
  split_ifs <;> omega

lemma before_onward (hj : j < sides) : before sides (onward sides j) = j := by
  rw [onward_eq hj, before]
  by_cases hlast : j + 1 = sides
  · rw [if_pos hlast, if_pos rfl]
    omega
  · rw [if_neg hlast, if_neg (Nat.succ_ne_zero j), Nat.add_sub_cancel]

lemma onward_before (hj : j < sides) : onward sides (before sides j) = j := by
  rw [onward_eq (before_lt hj), before]
  split_ifs <;> omega

lemma onward_ne (hsides : 3 ≤ sides) (hj : j < sides) : onward sides j ≠ j := by
  rw [onward_eq hj]
  split_ifs <;> omega

/-- Two places on is not back again, as there are three places at least. -/
lemma onward_onward_ne (hsides : 3 ≤ sides) (hj : j < sides) :
    onward sides (onward sides j) ≠ j := by
  rw [onward_eq (onward_lt hj), onward_eq hj]
  split_ifs <;> omega

lemma find_ends (hsides : 3 ≤ sides) (hj : d.1.2 < sides) : find sides (ends sides d) = d := by
  obtain ⟨⟨i, j⟩, s⟩ := d
  have hne := onward_ne hsides hj
  have hback := onward_onward_ne hsides hj
  cases s with
  | rise => simp [ends, find]
  | ahead => simp [ends, find]
  | fall => simp [ends, find, hne.symm]
  | climb => simp [ends, find, hne]
  | drop => simp [ends, find, before_onward hj]
  | back => simp [ends, find, hback.symm]

lemma find_swap_ends (hsides : 3 ≤ sides) (hj : d.1.2 < sides) :
    find sides (ends sides d).swap = opposite sides d := by
  obtain ⟨⟨i, j⟩, s⟩ := d
  have hne := onward_ne hsides hj
  have hback := onward_onward_ne hsides hj
  cases s with
  | rise => simp [ends, find, opposite]
  | ahead => simp [ends, find, opposite, hback.symm]
  | fall => simp [ends, find, opposite, hne]
  | climb => simp [ends, find, opposite, hne.symm]
  | drop => simp [ends, find, opposite]
  | back => simp [ends, find, opposite]

/-- Off the rim, the opposite side is there and goes the other way. -/
lemma opposite_of_not_onRim (h : Inside rings sides d) (hrim : ¬ OnRim rings d) :
    Inside rings sides (opposite sides d) ∧
      ends sides (opposite sides d) = (ends sides d).swap := by
  obtain ⟨⟨i, j⟩, s⟩ := d
  obtain ⟨hi, hj⟩ := h
  dsimp only at hi hj
  cases s with
  | rise => exact ⟨⟨hi, before_lt hj⟩, by simp [opposite, ends, onward_before hj]⟩
  | ahead => exact ⟨⟨by simp only [OnRim] at hrim; dsimp only [opposite]; omega, hj⟩, rfl⟩
  | fall => exact ⟨⟨hi, hj⟩, rfl⟩
  | climb => exact ⟨⟨hi, hj⟩, rfl⟩
  | drop => exact ⟨⟨hi, onward_lt hj⟩, rfl⟩
  | back =>
    have hpos : i - 1 + 1 = i := Nat.sub_add_cancel (Nat.pos_of_ne_zero hrim)
    exact ⟨⟨by dsimp only [opposite]; omega, hj⟩, by simp [opposite, ends, hpos]⟩

/-- On the rim, no side goes the other way. -/
lemma ne_swap_of_onRim (hsides : 3 ≤ sides) (h : Inside rings sides d) (hrim : OnRim rings d)
    {d' : (ℕ × ℕ) × Side} (h' : Inside rings sides d') : ends sides d' ≠ (ends sides d).swap := by
  obtain ⟨⟨i, j⟩, s⟩ := d
  obtain ⟨⟨i', j'⟩, s'⟩ := d'
  intro heq
  -- the ends tell that it would have to be the opposite side
  have hopposite : ((i', j'), s') = opposite sides ((i, j), s) := by
    rw [← find_ends hsides h'.place, heq, find_swap_ends hsides h.place]
  cases s with
  | ahead =>
    have hring : i' = i + 1 := congrArg (·.1.1) hopposite
    have hlast : i + 2 = rings := hrim
    have := h'.ring
    dsimp only at this
    omega
  | back =>
    have hfirst : i = 0 := hrim
    subst hfirst
    rw [hopposite] at heq
    simp [opposite, ends] at heq
  | rise | fall | climb | drop => exact hrim

lemma ends_ne (hsides : 3 ≤ sides) (hj : d.1.2 < sides) :
    (ends sides d).1 ≠ (ends sides d).2 := by
  obtain ⟨⟨i, j⟩, s⟩ := d
  have hne := onward_ne hsides hj
  cases s with
  | rise => simp [ends]
  | ahead => simp [ends, hne.symm]
  | fall => simp [ends]
  | climb => simp [ends]
  | drop => simp [ends]
  | back => simp [ends, hne]

lemma ends_place_lt (hj : d.1.2 < sides) :
    (ends sides d).1.2 < sides ∧ (ends sides d).2.2 < sides := by
  obtain ⟨⟨i, j⟩, s⟩ := d
  have hlt := onward_lt hj
  cases s <;> exact ⟨by assumption, by assumption⟩

/-! ## Numbers of places -/

/-- The number of the vertex at a place of a ring. -/
def number (sides : ℕ) (p : ℕ × ℕ) : ℕ := p.1 * sides + p.2

lemma number_inj {p q : ℕ × ℕ} (hp : p.2 < sides) (hq : q.2 < sides)
    (h : number sides p = number sides q) : p = q := by
  have hpos : 0 < sides := by omega
  have hsplit : ∀ r : ℕ × ℕ, r.2 < sides →
      number sides r / sides = r.1 ∧ number sides r % sides = r.2 := by
    intro r hr
    rw [number, Nat.mul_comm]
    exact ⟨by rw [Nat.mul_add_div hpos, Nat.div_eq_of_lt hr, Nat.add_zero],
      by rw [Nat.mul_add_mod, Nat.mod_eq_of_lt hr]⟩
  obtain ⟨hp₁, hp₂⟩ := hsplit p hp
  obtain ⟨hq₁, hq₂⟩ := hsplit q hq
  exact Prod.ext (by rw [← hp₁, h, hq₁]) (by rw [← hp₂, h, hq₂])

/-- The numbers of two places tell the places. -/
lemma map_number_inj {e e' : (ℕ × ℕ) × (ℕ × ℕ)} (h : e.1.2 < sides ∧ e.2.2 < sides)
    (h' : e'.1.2 < sides ∧ e'.2.2 < sides)
    (heq : e.map (number sides) (number sides) = e'.map (number sides) (number sides)) :
    e = e' := by
  obtain ⟨hfrom, hto⟩ := Prod.ext_iff.mp heq
  exact Prod.ext (number_inj h.1 h'.1 hfrom) (number_inj h.2 h'.2 hto)

/-- The edge that a side is. -/
def edge (sides : ℕ) (d : (ℕ × ℕ) × Side) : ℕ × ℕ :=
  (ends sides d).map (number sides) (number sides)

lemma edge_injOn (hsides : 3 ≤ sides) {d' : (ℕ × ℕ) × Side} (h : Inside rings sides d)
    (h' : Inside rings sides d') (heq : edge sides d = edge sides d') : d = d' := by
  have hends := map_number_inj (ends_place_lt h.place) (ends_place_lt h'.place) heq
  rw [← find_ends hsides h.place, ← find_ends hsides h'.place]
  exact congrArg (find sides) hends

/-- The edges of the end rings are the sides on the rim. -/
lemma mem_rim (hrings : 2 ≤ rings) {e : ℕ × ℕ} :
    e ∈ rim rings sides ↔ ∃ d, Inside rings sides d ∧ OnRim rings d ∧ edge sides d = e := by
  have hlast : rings - 2 + 1 = rings - 1 := by omega
  rw [rim, List.mem_append, List.mem_map, List.mem_map]
  constructor
  · rintro (⟨j, hj, rfl⟩ | ⟨j, hj, rfl⟩)
    · have hj := List.mem_range.mp hj
      exact ⟨((0, j), .back), ⟨by dsimp only; omega, hj⟩, rfl, by simp [edge, ends, number, onward]⟩
    · have hj := List.mem_range.mp hj
      exact ⟨((rings - 2, j), .ahead), ⟨by dsimp only; omega, hj⟩, by simp only [OnRim]; omega,
        by simp [edge, ends, number, onward, hlast]⟩
  · rintro ⟨⟨⟨i, j⟩, s⟩, ⟨hi, hj⟩, hrim, rfl⟩
    cases s with
    | back =>
      obtain rfl : i = 0 := hrim
      exact .inl ⟨j, List.mem_range.mpr hj, by simp [edge, ends, number, onward]⟩
    | ahead =>
      have hring : i + 1 = rings - 1 := by simp only [OnRim] at hrim; omega
      exact .inr ⟨j, List.mem_range.mpr hj, by simp [edge, ends, number, onward, hring]⟩
    | rise | fall | climb | drop => exact hrim.elim

/-! ## Triangles by their places -/

/-- The places at which there are triangles. -/
def places (rings sides : ℕ) : List (ℕ × ℕ) := List.range (rings - 1) ×ˢ List.range sides

/-- The two triangles at a place. -/
def triplesAt (sides : ℕ) : ℕ × ℕ → List (ℕ × ℕ × ℕ) := fun (i, j) =>
  [(number sides (i, j), number sides (i + 1, j), number sides (i + 1, onward sides j)),
    (number sides (i, j), number sides (i + 1, onward sides j), number sides (i, onward sides j))]

/-- The sides of all triangles, in order. -/
def allSides (rings sides : ℕ) : List ((ℕ × ℕ) × Side) :=
  places rings sides ×ˢ [.rise, .ahead, .fall, .climb, .drop, .back]

lemma mem_places {p : ℕ × ℕ} : p ∈ places rings sides ↔ p.1 + 1 < rings ∧ p.2 < sides := by
  rw [places, List.mem_product, List.mem_range, List.mem_range]
  omega

lemma mem_allSides : d ∈ allSides rings sides ↔ Inside rings sides d := by
  have hside : d.2 ∈ [Side.rise, .ahead, .fall, .climb, .drop, .back] := by
    cases d.2 <;> simp
  rw [allSides, List.mem_product, mem_places]
  exact ⟨fun h => ⟨h.1.1, h.1.2⟩, fun h => ⟨⟨h.ring, h.place⟩, hside⟩⟩

lemma nodup_allSides (rings sides : ℕ) : (allSides rings sides).Nodup :=
  List.Nodup.product (List.Nodup.product List.nodup_range List.nodup_range) (by simp)

lemma flatMap_product {α β γ : Type} (xs : List α) (ys : List β) (f : α × β → List γ) :
    (xs ×ˢ ys).flatMap f = xs.flatMap fun x => ys.flatMap fun y => f (x, y) := by
  show (xs.flatMap fun x => ys.map (Prod.mk x)).flatMap f = _
  simp only [List.flatMap_assoc, List.flatMap_map]

lemma map_edge_allSides (rings sides : ℕ) : (allSides rings sides).map (edge sides) =
    ((places rings sides).flatMap (triplesAt sides)).flatMap edgesOf := by
  rw [List.map_eq_flatMap, allSides, flatMap_product, List.flatMap_assoc]
  rfl

end Seam

namespace Branch

open Seam

variable {b : Branch} {resolution sides : ℕ}

/-- The triangles of a tube are two at each place between two rings. -/
lemma triples_toMesh (hsamples : 2 ≤ (b.sample resolution).length) (hsides : 3 ≤ sides)
    (hsize : (b.sample resolution).length * sides < 2 ^ 32) :
    (b.toMesh resolution sides).triples =
      (places (b.sample resolution).length sides).flatMap (triplesAt sides) := by
  have hquad : ∀ i ∈ List.range ((b.sample resolution).length - 1), ∀ j ∈ List.range sides,
      triplesOf ((quad ((i * sides).toUInt32 + j.toUInt32) (((i + 1) * sides).toUInt32 + j.toUInt32)
        (((i + 1) * sides).toUInt32 + ((j + 1) % sides).toUInt32)
        ((i * sides).toUInt32 + ((j + 1) % sides).toUInt32)).map UInt32.toNat) =
      triplesAt sides (i, j) := by
    intro i hi j hj
    rw [List.mem_range] at hi hj
    have hnext : (j + 1) % sides < sides := onward_lt hj
    have hi₀ : i < (b.sample resolution).length := by omega
    have hi₁ : i + 1 < (b.sample resolution).length := by omega
    simp only [quad, List.map_cons, toNat_place hsize hi₀ hj, toNat_place hsize hi₁ hj,
      toNat_place hsize hi₀ hnext, toNat_place hsize hi₁ hnext]
    rfl
  rw [triples, toMesh_eq hsamples hsides, bands, places, flatMap_product]
  simp only [List.map_flatMap]
  rw [triplesOf_flatMap fun i _ => by rw [List.length_map, length_band]; omega]
  refine List.flatMap_congr fun i hi => ?_
  rw [band, List.map_flatMap, triplesOf_flatMap fun j _ => ⟨2, rfl⟩]
  exact List.flatMap_congr fun j hj => hquad i hi j hj

lemma edges_toMesh (hsamples : 2 ≤ (b.sample resolution).length) (hsides : 3 ≤ sides)
    (hsize : (b.sample resolution).length * sides < 2 ^ 32) :
    (b.toMesh resolution sides).edges =
      (allSides (b.sample resolution).length sides).map (edge sides) := by
  rw [edges, triples_toMesh hsamples hsides hsize, map_edge_allSides]

lemma mem_edges_toMesh (hsamples : 2 ≤ (b.sample resolution).length) (hsides : 3 ≤ sides)
    (hsize : (b.sample resolution).length * sides < 2 ^ 32) {e : ℕ × ℕ} :
    e ∈ (b.toMesh resolution sides).edges ↔
      ∃ d, Inside (b.sample resolution).length sides d ∧ edge sides d = e := by
  simp only [edges_toMesh hsamples hsides hsize, List.mem_map, mem_allSides]

/-- Every vertex is the first corner of a triangle, or the second one in the last ring. -/
lemma used_toMesh (hsamples : 2 ≤ (b.sample resolution).length) (hsides : 3 ≤ sides)
    (hsize : (b.sample resolution).length * sides < 2 ^ 32) {v : ℕ}
    (hv : v < (b.sample resolution).length * sides) :
    ∃ x y z, (x, y, z) ∈ (b.toMesh resolution sides).triples ∧ (v = x ∨ v = y ∨ v = z) := by
  have hring : v / sides < (b.sample resolution).length :=
    (Nat.div_lt_iff_lt_mul (by omega)).mpr hv
  have hplace : v % sides < sides := Nat.mod_lt v (by omega)
  have hnumber : v = number sides (v / sides, v % sides) := (Nat.div_add_mod' v sides).symm
  rw [triples_toMesh hsamples hsides hsize]
  by_cases hlast : v / sides + 1 < (b.sample resolution).length
  · refine ⟨_, _, _, List.mem_flatMap.mpr ⟨(v / sides, v % sides), mem_places.mpr ⟨hlast, hplace⟩,
      List.mem_cons_self⟩, .inl hnumber⟩
  · have hbehind : v / sides - 1 + 1 = v / sides := by omega
    refine ⟨_, _, _, List.mem_flatMap.mpr ⟨(v / sides - 1, v % sides),
      mem_places.mpr ⟨by dsimp only; omega, hplace⟩, List.mem_cons_self⟩, .inr (.inl ?_)⟩
    rw [hbehind]
    exact hnumber

/-- **The seams of a tube.** Whatever the curve, its resolution and the number of sides, a tube of
at least two rings of at least three places is an open cylinder whose triangles all go around in the
same sense: inner edges are shared by two triangles that pass them in opposite directions, and the
edges of the two end rings belong to one triangle each. -/
theorem openTube_toMesh (hsamples : 2 ≤ (b.sample resolution).length) (hsides : 3 ≤ sides)
    (hsize : (b.sample resolution).length * sides < 2 ^ 32) :
    (b.toMesh resolution sides).OpenTube (b.sample resolution).length sides := by
  have hvertices : (b.toMesh resolution sides).vertices.size =
      (b.sample resolution).length * sides := by
    rw [toMesh_eq hsamples hsides, List.size_toArray, length_flatten_rings]
  have honce : (b.toMesh resolution sides).edges.Nodup := by
    rw [edges_toMesh hsamples hsides hsize]
    refine List.Nodup.map_on (fun d hd d' hd' heq => ?_) (nodup_allSides _ _)
    exact edge_injOn hsides (mem_allSides.mp hd) (mem_allSides.mp hd') heq
  have hne : ∀ e ∈ (b.toMesh resolution sides).edges, e.1 ≠ e.2 := by
    intro e he
    obtain ⟨d, hd, rfl⟩ := (mem_edges_toMesh hsamples hsides hsize).mp he
    obtain ⟨hfrom, hto⟩ := ends_place_lt hd.place
    exact fun heq => ends_ne hsides hd.place (number_inj hfrom hto heq)
  refine ⟨hvertices, ?_, ?_, ?_, honce, ?_, ?_, ?_⟩
  · rw [triangleCount, toMesh_eq hsamples hsides, List.size_toArray, length_bands]
    rw [show ((b.sample resolution).length - 1) * (sides * 6) =
      2 * ((b.sample resolution).length - 1) * sides * 3 by ring, Nat.mul_div_cancel _ (by decide)]
  · exact (Nat.mul_div_cancel' (toMesh_valid hsize).whole).symm
  · intro x y z h
    obtain ⟨hxy, hyz, hzx⟩ := edges_of_mem_triples h
    exact ⟨hne _ hxy, hne _ hyz, hne _ hzx⟩
  · intro e he hrim
    obtain ⟨d, hd, rfl⟩ := (mem_edges_toMesh hsamples hsides hsize).mp he
    obtain ⟨hinside, hswap⟩ := opposite_of_not_onRim hd fun h =>
      hrim ((mem_rim hsamples).mpr ⟨d, hd, h, rfl⟩)
    refine List.count_eq_one_of_mem honce
      ((mem_edges_toMesh hsamples hsides hsize).mpr ⟨_, hinside, ?_⟩)
    rw [edge, hswap]
    rfl
  · intro e he
    obtain ⟨d, hd, hrim, rfl⟩ := (mem_rim hsamples).mp he
    refine ⟨(mem_edges_toMesh hsamples hsides hsize).mpr ⟨d, hd, rfl⟩, fun hswap => ?_⟩
    obtain ⟨d', hd', heq⟩ := (mem_edges_toMesh hsamples hsides hsize).mp hswap
    exact ne_swap_of_onRim hsides hd hrim hd' (map_number_inj (ends_place_lt hd'.place)
      (ends_place_lt hd.place).symm heq)
  · intro v hv
    rw [hvertices] at hv
    exact used_toMesh hsamples hsides hsize hv

/-- A branch with two knots in one place, which ends in a point. -/
def stump : Branch := ofSamples [⟨.zero, 1⟩, ⟨.zero, 1⟩, ⟨.unitZ, 0⟩] 0 1

theorem openTube_toMesh_stump : (stump.sample 1).length = 3 ∧ (stump.toMesh 1 3).OpenTube 3 3 := by
  have hlength : (stump.sample 1).length = 3 := by decide +kernel
  have htube : (stump.toMesh 1 3).OpenTube (stump.sample 1).length 3 :=
    openTube_toMesh (by rw [hlength]; decide) le_rfl (by rw [hlength]; decide)
  rw [hlength] at htube
  exact ⟨hlength, htube⟩

end Branch

end Arbor
