import Arbor.Proofs.Shape.Tubes
import Mathlib.Tactic.Ring

/-!
# The grid of a tube

A tube is a grid: its vertices are addressed by ring and place in the ring (`vertex_toMesh`), and
between two neighbouring rings there are two triangles at each place (`corner_lower`,
`corner_upper`), which are all of its triangles (`exists_place_of_lt`).
-/

namespace Arbor

open Mesh

/-- An element of lists of one length put together, by list and place. -/
lemma getElem?_flatMap_of_length {α β : Type} {f : α → List β} {xs : List α} {n q r : Nat}
    (h : ∀ x ∈ xs, (f x).length = n) (hr : r < n) :
    (xs.flatMap f)[q * n + r]? = xs[q]?.bind fun x => (f x)[r]? := by
  induction xs generalizing q with
  | nil => simp
  | cons x xs ih =>
    have hx : (f x).length = n := h x List.mem_cons_self
    rw [List.flatMap_cons]
    cases q with
    | zero =>
      rw [Nat.zero_mul, Nat.zero_add, List.getElem?_append_left (by omega)]
      rfl
    | succ q =>
      have hplace : (q + 1) * n + r = (f x).length + (q * n + r) := by
        rw [hx, Nat.succ_mul]
        omega
      rw [hplace, List.getElem?_append_right (Nat.le_add_right _ _), Nat.add_sub_cancel_left,
        ih fun y hy => h y (List.mem_cons_of_mem _ hy)]
      rfl

namespace Mesh

/-- Corner `k` of triangle `t`. -/
def corner? (m : Mesh) (t k : Nat) : Option Vertex := do m.vertices[(← m.indices[3 * t + k]?).toNat]?

lemma getElem?_band {first second : UInt32} {segments j k : Nat} (hj : j < segments) (hk : k < 6) :
    (band first second segments)[j * 6 + k]? =
      (quad (first + j.toUInt32) (second + j.toUInt32)
        (second + ((j + 1) % segments).toUInt32)
        (first + ((j + 1) % segments).toUInt32))[k]? := by
  rw [band, getElem?_flatMap_of_length (n := 6) (fun _ _ => rfl) hk, List.getElem?_range hj]
  rfl

end Mesh

namespace Branch

variable {b : Branch} {samples : List Sample} {resolution sides i j : Nat}

/-! ## Vertices -/

/-- The heading at a sample goes from the sample before it to the one after it. -/
lemma getElem?_headings {p q : Sample} (hi : i < samples.length) (hp : samples[i - 1]? = some p)
    (hq : samples[min (i + 1) (samples.length - 1)]? = some q) :
    (headings samples)[i]? = some (q.position - p.position) := by
  have hbefore : (((samples.map Sample.position).head?).toList ++ samples.map Sample.position)[i]? =
      some p.position := by
    cases i with
    | zero =>
      cases samples with
      | nil => simp at hi
      | cons s samples => simpa using congrArg (Option.map Sample.position) hp
    | succ i =>
      cases samples with
      | nil => simp at hi
      | cons s samples =>
        rw [Nat.add_sub_cancel] at hp
        show ((s :: samples).map Sample.position)[i]? = some p.position
        rw [List.getElem?_map, hp]
        rfl
  have hafter : ((samples.map Sample.position).tail ++
      ((samples.map Sample.position).getLast?).toList)[i]? = some q.position := by
    rcases Nat.lt_or_ge (i + 1) samples.length with hlt | hge
    · rw [Nat.min_eq_left (by omega)] at hq
      rw [List.getElem?_append_left (by simp; omega), List.getElem?_tail, List.getElem?_map, hq]
      rfl
    · rw [Nat.min_eq_right (by omega)] at hq
      have hlast : samples.getLast? = some q := by rw [List.getLast?_eq_getElem?, hq]
      rw [List.getElem?_append_right (by simp; omega), List.getLast?_map, hlast]
      have hzero : i - (samples.map Sample.position).tail.length = 0 := by simp; omega
      rw [hzero]
      rfl
  rw [headings, List.getElem?_map, List.getElem?_zip_eq_some (z := (q.position, p.position)) |>.mpr
    ⟨hafter, hbefore⟩]
  rfl

/-- The ring at a sample. -/
lemma getElem?_rings {s : Sample} {heading : Vec3} (hs : samples[i]? = some s)
    (hheading : (headings samples)[i]? = some heading) :
    (b.rings samples sides)[i]? = some (ring s.position heading.normalize (s.radius * b.bevel) sides
      (part i (samples.length - 1))) := by
  have hi : i < samples.length := (List.getElem?_eq_some_iff.mp hs).1
  have hzip : ((samples.zip (headings samples)).zip (List.range samples.length))[i]? =
      some ((s, heading), i) := by
    rw [List.getElem?_zip_eq_some, List.getElem?_zip_eq_some]
    exact ⟨⟨hs, hheading⟩, List.getElem?_range hi⟩
  rw [rings, List.getElem?_map, hzip]
  rfl

lemma toMesh_eq (hsamples : 2 ≤ (b.sample resolution).length) (hsides : 3 ≤ sides) :
    b.toMesh resolution sides = ⟨(b.rings (b.sample resolution) sides).flatten.toArray,
      (bands (b.sample resolution).length sides).toArray⟩ := by
  unfold toMesh
  dsimp only
  rw [if_neg (by omega)]

/-- The vertex at a place of a ring. -/
lemma vertex_toMesh (hsamples : 2 ≤ (b.sample resolution).length) (hsides : 3 ≤ sides)
    (hj : j < sides) : (b.toMesh resolution sides).vertices[i * sides + j]? =
      (b.rings (b.sample resolution) sides)[i]?.bind (·[j]?) := by
  have hlength : ∀ l ∈ b.rings (b.sample resolution) sides, (id l).length = sides := by
    intro l hl
    obtain ⟨_, -, rfl⟩ := List.mem_map.mp hl
    exact length_ring ..
  rw [toMesh_eq hsamples hsides, List.getElem?_toArray, ← List.flatMap_id,
    getElem?_flatMap_of_length hlength hj]
  rfl

/-! ## Triangles -/

/-- The quadrilateral at a place between two rings. -/
lemma getElem?_bands {count k : Nat} (hi : i + 1 < count) (hj : j < sides) (hk : k < 6) :
    (bands count sides)[(i * sides + j) * 6 + k]? =
      (quad ((i * sides).toUInt32 + j.toUInt32) (((i + 1) * sides).toUInt32 + j.toUInt32)
        (((i + 1) * sides).toUInt32 + ((j + 1) % sides).toUInt32)
        ((i * sides).toUInt32 + ((j + 1) % sides).toUInt32))[k]? := by
  have hplace : (i * sides + j) * 6 + k = i * (sides * 6) + (j * 6 + k) := by ring
  have hlt : j * 6 + k < sides * 6 := by omega
  rw [hplace, bands, getElem?_flatMap_of_length (fun _ _ => length_band ..) hlt,
    List.getElem?_range (by omega)]
  exact getElem?_band hj hk

/-- The index of a place of a ring. -/
lemma toNat_place {count : Nat} (h : count * sides < 2 ^ 32) (hi : i < count) (hj : j < sides) :
    ((i * sides).toUInt32 + j.toUInt32).toNat = i * sides + j := by
  have hring := ring_end_le sides hi
  have hstart : (i * sides).toUInt32.toNat = i * sides := toNat_toUInt32 (by omega)
  have hplace : j.toUInt32.toNat = j := toNat_toUInt32 (by omega)
  rw [toNat_add (by rw [hstart, hplace]; omega), hstart, hplace]

section Triangles

variable (hsamples : 2 ≤ (b.sample resolution).length) (hsides : 3 ≤ sides)
  (hsize : (b.sample resolution).length * sides < 2 ^ 32)
  (hi : i + 1 < (b.sample resolution).length) (hj : j < sides)

include hsamples hsides hi hj

/-- The corners of the two triangles at a place are those of its quadrilateral. -/
lemma corner_eq {t k : Nat} (hk : 3 * t + k < 6) :
    (b.toMesh resolution sides).corner? (2 * (i * sides + j) + t) k =
      (quad ((i * sides).toUInt32 + j.toUInt32) (((i + 1) * sides).toUInt32 + j.toUInt32)
        (((i + 1) * sides).toUInt32 + ((j + 1) % sides).toUInt32)
        ((i * sides).toUInt32 + ((j + 1) % sides).toUInt32))[3 * t + k]?.bind
          fun n => (b.toMesh resolution sides).vertices[n.toNat]? := by
  have hindex : (b.toMesh resolution sides).indices[3 * (2 * (i * sides + j) + t) + k]? =
      (bands (b.sample resolution).length sides)[(i * sides + j) * 6 + (3 * t + k)]? := by
    rw [toMesh_eq hsamples hsides, List.getElem?_toArray]
    congr 1
    ring
  rw [corner?, hindex, getElem?_bands hi hj hk]
  rfl

include hsize

/-- The first triangle at a place: it goes along the branch first, and then around it. -/
lemma corner_lower :
    (b.toMesh resolution sides).corner? (2 * (i * sides + j)) 0 =
        (b.toMesh resolution sides).vertices[i * sides + j]? ∧
      (b.toMesh resolution sides).corner? (2 * (i * sides + j)) 1 =
        (b.toMesh resolution sides).vertices[(i + 1) * sides + j]? ∧
      (b.toMesh resolution sides).corner? (2 * (i * sides + j)) 2 =
        (b.toMesh resolution sides).vertices[(i + 1) * sides + (j + 1) % sides]? := by
  have hnext : (j + 1) % sides < sides := Nat.mod_lt _ (by omega)
  have hcorner := fun k => corner_eq hsamples hsides hi hj (t := 0) (k := k)
  refine ⟨?_, ?_, ?_⟩
  · refine (hcorner 0 (by decide)).trans ?_
    rw [← toNat_place hsize (i := i) (by omega) hj]
    rfl
  · refine (hcorner 1 (by decide)).trans ?_
    rw [← toNat_place hsize hi hj]
    rfl
  · refine (hcorner 2 (by decide)).trans ?_
    rw [← toNat_place hsize hi hnext]
    rfl

/-- The second triangle at a place: it goes along the branch and around it at once, and comes back
along the branch. -/
lemma corner_upper :
    (b.toMesh resolution sides).corner? (2 * (i * sides + j) + 1) 0 =
        (b.toMesh resolution sides).vertices[i * sides + j]? ∧
      (b.toMesh resolution sides).corner? (2 * (i * sides + j) + 1) 1 =
        (b.toMesh resolution sides).vertices[(i + 1) * sides + (j + 1) % sides]? ∧
      (b.toMesh resolution sides).corner? (2 * (i * sides + j) + 1) 2 =
        (b.toMesh resolution sides).vertices[i * sides + (j + 1) % sides]? := by
  have hnext : (j + 1) % sides < sides := Nat.mod_lt _ (by omega)
  have hcorner := fun k => corner_eq hsamples hsides hi hj (t := 1) (k := k)
  refine ⟨?_, ?_, ?_⟩
  · refine (hcorner 0 (by decide)).trans ?_
    rw [← toNat_place hsize (i := i) (by omega) hj]
    rfl
  · refine (hcorner 1 (by decide)).trans ?_
    rw [← toNat_place hsize hi hnext]
    rfl
  · refine (hcorner 2 (by decide)).trans ?_
    rw [← toNat_place hsize (i := i) (by omega) hnext]
    rfl

end Triangles

/-- Every triangle is one of the two at a place. -/
lemma exists_place_of_lt (hsamples : 2 ≤ (b.sample resolution).length) (hsides : 3 ≤ sides) {t : Nat}
    (ht : t < (b.toMesh resolution sides).triangleCount) :
    ∃ i j, i + 1 < (b.sample resolution).length ∧ j < sides ∧
      (t = 2 * (i * sides + j) ∨ t = 2 * (i * sides + j) + 1) := by
  rw [triangleCount, toMesh_eq hsamples hsides, List.size_toArray, length_bands, ← Nat.mul_assoc] at ht
  set count := (b.sample resolution).length
  have hplace : t / 2 < (count - 1) * sides := by omega
  refine ⟨t / 2 / sides, t / 2 % sides, ?_, Nat.mod_lt _ (by omega), ?_⟩
  · have := (Nat.div_lt_iff_lt_mul (by omega)).mpr hplace
    omega
  · rw [Nat.mul_comm (t / 2 / sides), Nat.div_add_mod]
    omega

end Branch

end Arbor
