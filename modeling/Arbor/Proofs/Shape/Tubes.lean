import Arbor.Proofs.Shape.Merging
import Mathlib.Tactic.SplitIfs

/-!
# Tubes

The tube of a branch has a ring at every sample of its curve.  A branch of `k` spans has
`max resolution 1 * k + 1` samples, so the sizes of its tube are fixed by the number of its spans
(`toMesh_vertices_size`, `toMesh_indices_size`), wherever its knots lie.

The index of a vertex is the start of its ring and the place in the ring.  As long as the tube has
fewer than `2 ^ 32` vertices none of these wraps, so the tube is valid and its checked twin agrees
with it (`toMesh_valid`, `toMesh?_eq_some`).
-/

namespace Arbor

open Mesh

/-- A list of lists of one length. -/
lemma length_flatMap_of_forall {α β : Type} {f : α → List β} {n : Nat} {xs : List α}
    (h : ∀ x ∈ xs, (f x).length = n) : (xs.flatMap f).length = xs.length * n := by
  rw [List.length_flatMap, List.map_congr_left h, List.map_const', List.sum_replicate_nat]

/-! ## Bands -/

namespace Mesh

/-- `band` with its casts and its sums checked. -/
def band? (first second : UInt32) (segments : Nat) : Option (List UInt32) := do
  let quads ← (List.range segments).mapM fun i => do
    let here ← index? i
    let there ← index? ((i + 1) % segments)
    return quad (← add? first here) (← add? second here) (← add? second there) (← add? first there)
  return quads.flatten

lemma length_ring (center direction : Vec3) (radius : Float32) (segments : Nat) (v : Float32) :
    (ring center direction radius segments v).length = segments := by simp [ring]

lemma length_band (first second : UInt32) (segments : Nat) :
    (band first second segments).length = segments * 6 := by
  rw [band, length_flatMap_of_forall (n := 6) fun _ _ => rfl, List.length_range]

/-- Every corner of a band is a place in one of the two rings. -/
lemma exists_of_mem_band {first second : UInt32} {segments : Nat} {x : UInt32}
    (h : x ∈ band first second segments) :
    ∃ i < segments, x = first + i.toUInt32 ∨ x = second + i.toUInt32 := by
  obtain ⟨i, hi, hx⟩ := List.mem_flatMap.mp h
  have hi := List.mem_range.mp hi
  have hnext : (i + 1) % segments < segments := Nat.mod_lt _ (by omega)
  simp only [quad, List.mem_cons, List.not_mem_nil, or_false] at hx
  rcases hx with hx | hx | hx | hx | hx | hx
  · exact ⟨i, hi, .inl hx⟩
  · exact ⟨i, hi, .inr hx⟩
  · exact ⟨_, hnext, .inr hx⟩
  · exact ⟨i, hi, .inl hx⟩
  · exact ⟨_, hnext, .inr hx⟩
  · exact ⟨_, hnext, .inl hx⟩

lemma band?_eq_some {first second : UInt32} {segments : Nat}
    (hfirst : first.toNat + segments ≤ 2 ^ 32) (hsecond : second.toNat + segments ≤ 2 ^ 32) :
    band? first second segments = some (band first second segments) := by
  have hplace : ∀ i < segments, index? i = some i.toUInt32 ∧
      add? first i.toUInt32 = some (first + i.toUInt32) ∧
      add? second i.toUInt32 = some (second + i.toUInt32) := by
    intro i hi
    have hlt : i < 2 ^ 32 := by omega
    have hcast := toNat_toUInt32 hlt
    exact ⟨index?_eq_some hlt, add?_eq_some (by omega), add?_eq_some (by omega)⟩
  rw [band?, mapM_eq_some (f := fun i => quad (first + i.toUInt32) (second + i.toUInt32)
    (second + ((i + 1) % segments).toUInt32) (first + ((i + 1) % segments).toUInt32))]
  · rfl
  · intro i hi
    have hi := List.mem_range.mp hi
    obtain ⟨hhere, hfirst, hsecond⟩ := hplace i hi
    obtain ⟨hthere, hfirst', hsecond'⟩ := hplace ((i + 1) % segments) (Nat.mod_lt _ (by omega))
    simp [hhere, hthere, hfirst, hfirst', hsecond, hsecond']

end Mesh

namespace Branch

/-! ## Samples and rings -/

variable (b : Branch)

lemma length_sample (h : b.knots ≠ []) (resolution : Nat) :
    (b.sample resolution).length = b.spanCount * max resolution 1 + 1 := by
  have hlast : b.knots.getLast? = some (b.knots.getLast h) := List.getLast?_eq_some_getLast h
  have hspans : (b.knots.zip b.knots.tail).length = b.spanCount := by
    rw [List.length_zip, List.length_tail, spanCount]
    omega
  rw [sample, List.length_append, hlast, length_flatMap_of_forall, hspans]
  · rfl
  · rintro ⟨k, l⟩ -
    rw [List.length_map, List.length_range]

lemma length_headings (samples : List Sample) : (headings samples).length = samples.length := by
  cases samples with
  | nil => rfl
  | cons s samples =>
    have hlast : (((s :: samples).map Sample.position).getLast?).toList.length = 1 := by
      simp [List.getLast?_cons]
    simp only [headings, List.length_map, List.length_zip, List.length_append, List.length_tail,
      hlast]
    simp

lemma length_rings (samples : List Sample) (sides : Nat) :
    (b.rings samples sides).length = samples.length := by
  rw [rings, List.length_map, List.length_zip, List.length_zip, length_headings, List.length_range]
  omega

lemma length_flatten_rings (samples : List Sample) (sides : Nat) :
    (b.rings samples sides).flatten.length = samples.length * sides := by
  rw [← List.flatMap_id', length_flatMap_of_forall, length_rings]
  intro ring hring
  obtain ⟨_, -, rfl⟩ := List.mem_map.mp hring
  exact length_ring ..

/-! ## Bands of a tube -/

/-- `bands` with its casts and its sums checked. -/
def bands? (count sides : Nat) : Option (List UInt32) := do
  let all ← (List.range (count - 1)).mapM fun i => do
    band? (← index? (i * sides)) (← index? ((i + 1) * sides)) sides
  return all.flatten

lemma length_bands (count sides : Nat) :
    (bands count sides).length = (count - 1) * (sides * 6) := by
  rw [bands, length_flatMap_of_forall fun _ _ => length_band .., List.length_range]

/-- Each of `count` rings ends where the last one ends or before. -/
lemma ring_end_le (sides : Nat) {count i : Nat} (hi : i < count) :
    i * sides + sides ≤ count * sides := by
  rw [← Nat.succ_mul]
  exact Nat.mul_le_mul_right sides hi

lemma toNat_lt_of_mem_bands {count sides : Nat} (h : count * sides < 2 ^ 32) {x : UInt32}
    (hx : x ∈ bands count sides) : x.toNat < count * sides := by
  obtain ⟨i, hi, hx⟩ := List.mem_flatMap.mp hx
  have hi := List.mem_range.mp hi
  obtain ⟨j, hj, hx⟩ := exists_of_mem_band hx
  have hplace : ∀ k < count, (k * sides).toUInt32.toNat + j.toUInt32.toNat < count * sides := by
    intro k hk
    have hring := ring_end_le sides hk
    rw [toNat_toUInt32 (by omega), toNat_toUInt32 (by omega)]
    omega
  rcases hx with rfl | rfl
  · have hlt := hplace i (by omega)
    rwa [toNat_add (Nat.lt_trans hlt h)]
  · have hlt := hplace (i + 1) (by omega)
    rwa [toNat_add (Nat.lt_trans hlt h)]

lemma bands?_eq_some {count sides : Nat} (h : count * sides < 2 ^ 32) :
    bands? count sides = some (bands count sides) := by
  have hstart : ∀ k < count, index? (k * sides) = some (k * sides).toUInt32 ∧
      (k * sides).toUInt32.toNat + sides ≤ 2 ^ 32 := by
    intro k hk
    rcases Nat.eq_zero_or_pos sides with rfl | hpos
    · exact ⟨rfl, by rw [Nat.mul_zero]; decide⟩
    · have hring := ring_end_le sides hk
      have hlt : k * sides < 2 ^ 32 := by omega
      rw [toNat_toUInt32 hlt]
      exact ⟨index?_eq_some hlt, by omega⟩
  rw [bands?, mapM_eq_some (f := fun i =>
    band (i * sides).toUInt32 ((i + 1) * sides).toUInt32 sides)]
  · rfl
  · intro i hi
    have hi := List.mem_range.mp hi
    obtain ⟨hfirst, hle⟩ := hstart i (by omega)
    obtain ⟨hsecond, hle'⟩ := hstart (i + 1) (by omega)
    rw [hfirst, hsecond]
    exact band?_eq_some hle hle'

/-! ## The tube -/

/-- `toMesh` with its casts and its sums checked. -/
def toMesh? (resolution sides : Nat) : Option Mesh :=
  let samples := b.sample resolution
  if samples.length < 2 ∨ sides < 3 then some .empty
  else do
    let indices ← bands? samples.length sides
    return ⟨(b.rings samples sides).flatten.toArray, indices.toArray⟩

variable {b} {resolution sides : Nat}

lemma knots_ne_nil (hspan : 0 < b.spanCount) : b.knots ≠ [] := by
  intro h
  simp [spanCount, h] at hspan

/-- A branch with a span has two samples, so its tube is not empty. -/
lemma toMesh_of_span (hspan : 0 < b.spanCount) (hsides : 3 ≤ sides) :
    b.toMesh resolution sides =
      ⟨(b.rings (b.sample resolution) sides).flatten.toArray,
        (bands (b.sample resolution).length sides).toArray⟩ := by
  have hpos : 0 < b.spanCount * max resolution 1 := Nat.mul_pos hspan (by omega)
  have hsamples := length_sample b (knots_ne_nil hspan) resolution
  rw [toMesh, if_neg (by omega)]

lemma toMesh_vertices_size (hspan : 0 < b.spanCount) (hsides : 3 ≤ sides) :
    (b.toMesh resolution sides).vertices.size =
      (b.spanCount * max resolution 1 + 1) * sides := by
  rw [toMesh_of_span hspan hsides, List.size_toArray, length_flatten_rings,
    length_sample b (knots_ne_nil hspan)]

lemma toMesh_indices_size (hspan : 0 < b.spanCount) (hsides : 3 ≤ sides) :
    (b.toMesh resolution sides).indices.size = b.spanCount * max resolution 1 * (sides * 6) := by
  rw [toMesh_of_span hspan hsides, List.size_toArray, length_bands,
    length_sample b (knots_ne_nil hspan), Nat.add_sub_cancel]

lemma toMesh_valid (h : (b.sample resolution).length * sides < 2 ^ 32) :
    (b.toMesh resolution sides).Valid := by
  unfold toMesh
  dsimp only
  split_ifs with hsmall
  · exact valid_empty
  · refine ⟨?_, fun x hx => ?_⟩
    · rw [List.size_toArray, length_bands, ← Nat.mul_assoc]
      exact Nat.dvd_mul_left_of_dvd (by decide) _
    · rw [List.size_toArray, length_flatten_rings]
      exact toNat_lt_of_mem_bands h (List.mem_toArray.mp hx)

lemma toMesh?_eq_some (h : (b.sample resolution).length * sides < 2 ^ 32) :
    b.toMesh? resolution sides = some (b.toMesh resolution sides) := by
  unfold toMesh? toMesh
  dsimp only
  split_ifs with hsmall
  · rfl
  · rw [bands?_eq_some h]
    rfl

end Branch

end Arbor
