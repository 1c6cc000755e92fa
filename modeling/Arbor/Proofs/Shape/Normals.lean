import Arbor.Proofs.Shape.Extent
import Arbor.Proofs.Shape.Rings
import Arbor.Proofs.Shape.Sampling
import Arbor.Proofs.Space.Scaling
import Arbor.Proofs.Space.Short

/-!
# Normals of a tube

The normal of a vertex is the way to it from the center of its ring, normalized.  How well that
succeeds depends on two sizes.  The heading of the ring has to have a length: then the frame of the
ring is that of a direction (`exists_frame`), whatever the heading.  And the thickness of the tube
has to be resolved when it is squared: then the normal has a length of one, up to a thousandth
(`norm_normal_sub_one_le`).

Neither holds of all curves.  Where a curve turns back on itself the samples before and after a
sample may be the same point, which is no heading, and a thin tube has a thickness whose square is
lost.  The normals are then next to nothing (`null_offset`, `norm_offset_le`).
-/

namespace Arbor

open Number

namespace Vec3

open Space
open scoped RealInnerProductSpace

variable {d : Space} {a b v : Vec3} {η : ℝ}

/-! ## Frames -/

/-- The first vector of a frame, whichever of the two axes it is made from. -/
lemma exists_perpendicular (hn : v.normalize.Around η d) (hd : ‖d‖ = 1) (hη : η ≤ 1 / 1000) :
    ∃ u : Space, ‖u‖ = 1 ∧ ⟪d, u⟫ = 0 ∧ v.perpendicular.Around (5 * η + 1 / 2 ^ 16) u := by
  obtain ⟨hfinite, hval⟩ := finite_abs hn.1.z
  have hheight : |val v.normalize.z - d 2| ≤ η :=
    (abs_apply_le (v.normalize.real - d) 2).trans hn.2
  obtain ⟨hlow, hhigh⟩ := abs_le.mp ((abs_abs_sub_abs_le (val v.normalize.z) (d 2)).trans hheight)
  have hconst := abs_le.mp val_nine_tenths.2
  have hiff := lt_iff_val_lt hfinite val_nine_tenths.1
  rw [hval] at hiff
  -- Either axis is far enough from the direction, as its height is close to the one compared.
  obtain ⟨axis, e, haxis, he, hfar, hperpendicular⟩ : ∃ (axis : Vec3) (e : Space),
      axis.Around 0 e ∧ ‖e‖ = 1 ∧ 43 / 100 ≤ ‖Space.cross d e‖ ∧
        v.perpendicular = (v.normalize.cross axis).normalize := by
    unfold perpendicular
    dsimp only
    split_ifs with hcase
    · refine ⟨unitZ, axisZ, around_unitZ, norm_axisZ, le_norm_cross_axisZ hd ?_, rfl⟩
      have := hiff.mp hcase
      norm_num at hconst
      linarith
    · refine ⟨unitX, axisX, around_unitX, norm_axisX, le_norm_cross_axisX hd ?_, rfl⟩
      have := not_lt.mp (mt hiff.mpr hcase)
      norm_num at hconst
      linarith
  have hne : Space.cross d e ≠ 0 := norm_pos_iff.mp (lt_of_lt_of_le (by norm_num) hfar)
  refine ⟨unit (Space.cross d e), norm_unit hne, ?_, ?_⟩
  · rw [unit, inner_smul_right, inner_cross_left, mul_zero]
  · rw [hperpendicular]
    exact hn.normalize_cross_axis hd (by linarith) haxis he hfar

/-- The frame of a ring is one of unit vectors at a right angle. -/
lemma exists_frame (hn : v.normalize.Around (1 / 2 ^ 17) d) (hd : ‖d‖ = 1) :
    ∃ u w : Space, ‖u‖ = 1 ∧ ‖w‖ = 1 ∧ ⟪u, w⟫ = 0 ∧ v.perpendicular.Around (1 / 2 ^ 12) u ∧
      (v.normalize.cross v.perpendicular).normalize.Around (1 / 2 ^ 12) w := by
  obtain ⟨u, hu, hdu, hperpendicular⟩ := exists_perpendicular hn hd (by norm_num)
  have hright := norm_cross_of_inner hd hu hdu
  have hbitangent := hn.normalize_cross hperpendicular hd hu hright (by norm_num) (by norm_num)
  exact ⟨u, Space.cross d u, hu, hright, inner_cross_right d u, hperpendicular.mono (by norm_num),
    hbitangent.mono (by norm_num)⟩

/-- A frame is finite, whatever the direction. -/
lemma boxed_perpendicular (hv : v.Finite) : v.perpendicular.Boxed 1 := by
  have hn := boxed_normalize hv
  unfold perpendicular
  dsimp only
  split_ifs
  · exact boxed_normalize (hn.cross boxed_unitZ (n := 2) (by norm_num) (by norm_num)).finite
  · exact boxed_normalize (hn.cross boxed_unitX (n := 2) (by norm_num) (by norm_num)).finite

lemma boxed_bitangent (hv : v.Finite) :
    (v.normalize.cross v.perpendicular).normalize.Boxed 1 :=
  boxed_normalize ((boxed_normalize hv).cross (boxed_perpendicular hv) (n := 3) (by norm_num)
    (by norm_num)).finite

/-! ## Zero vectors -/

lemma null_of_real_eq_zero (hv : v.Finite) (h : v.real = 0) : v.Null := by
  have hcoordinate : ∀ i, v.real i = 0 := fun i => by simp [h]
  exact ⟨⟨hv.x, (hcoordinate 0).ge, (hcoordinate 0).le⟩,
    ⟨hv.y, (hcoordinate 1).ge, (hcoordinate 1).le⟩,
    ⟨hv.z, (hcoordinate 2).ge, (hcoordinate 2).le⟩⟩

lemma Null.finite (h : v.Null) : v.Finite := ⟨h.x.1, h.y.1, h.z.1⟩

lemma Null.real_eq_zero (h : v.Null) : v.real = 0 := by
  ext i
  fin_cases i
  · exact h.x.val_eq_zero
  · exact h.y.val_eq_zero
  · exact h.z.val_eq_zero

lemma Null.normalize_eq (h : v.Null) : v.normalize = v := normalize_of_within_zero h.length

lemma Null.scale (h : v.Null) {s : Float32} (hs : IsFinite s) : (v.scale s).Null := by
  have hcoordinate : ∀ {x : Float32}, Within 0 0 x → Within 0 0 (x * s) := by
    intro x hx
    apply within_mul held_zero held_zero hx.1 hs <;> simp [hx.val_eq_zero]
  exact ⟨hcoordinate h.x, hcoordinate h.y, hcoordinate h.z⟩

lemma Null.add (ha : a.Null) (hb : b.Null) : (a + b).Null :=
  ⟨within_zero_add ha.x hb.x, within_zero_add ha.y hb.y, within_zero_add ha.z hb.z⟩

lemma Null.cross_left (ha : a.Null) (hb : b.Finite) : (a.cross b).Null := by
  have hproduct : ∀ {x y : Float32}, Within 0 0 x → IsFinite y → Within 0 0 (x * y) := by
    intro x y hx hy
    apply within_mul held_zero held_zero hx.1 hy <;> simp [hx.val_eq_zero]
  exact ⟨within_zero_sub (hproduct ha.y hb.z) (hproduct ha.z hb.y),
    within_zero_sub (hproduct ha.z hb.x) (hproduct ha.x hb.z),
    within_zero_sub (hproduct ha.x hb.y) (hproduct ha.y hb.x)⟩

lemma Null.perpendicular (h : v.Null) : v.perpendicular.Null := by
  unfold Vec3.perpendicular
  dsimp only
  rw [h.normalize_eq]
  split_ifs
  · have hcross := h.cross_left boxed_unitZ.finite
    rwa [hcross.normalize_eq]
  · have hcross := h.cross_left boxed_unitX.finite
    rwa [hcross.normalize_eq]

lemma Null.bitangent (h : v.Null) : (v.normalize.cross v.perpendicular).normalize.Null := by
  rw [h.normalize_eq]
  have hcross := h.cross_left h.perpendicular.finite
  rwa [hcross.normalize_eq]

end Vec3

/-! ## Vertices of a ring -/

namespace Mesh

open Space

variable {d : Space} {center direction t b : Vec3} {radius v : Float32} {i n : ℕ} {k : ℤ}
  {a : Vertex}

/-- The way from the center of a ring to the vertex at a place. -/
def offset (direction : Vec3) (radius : Float32) (n i : ℕ) : Vec3 :=
  direction.perpendicular.scale (cos (part i n * tau) * radius) +
    (direction.normalize.cross direction.perpendicular).normalize.scale
      (sin (part i n * tau) * radius)

lemma normal_of_ring (h : (ring center direction radius n v)[i]? = some a) :
    i < n ∧ a.normal = (offset direction radius n i).normalize := by
  have hi : i < n := by
    have := (List.getElem?_eq_some_iff.mp h).1
    rwa [length_ring] at this
  rw [ring, List.getElem?_map, List.getElem?_range hi, Option.map_some, Option.some_inj] at h
  subst h
  exact ⟨hi, rfl⟩

/-- The sine and the cosine of an angle of a ring, however many places there are. -/
lemma approx_sin_cos_of_angle (hi : i < n) (hn : n < 2 ^ 64) :
    Approx (1 / 2 ^ 18) 1 (Real.sin (val (part i n * tau))) (sin (part i n * tau)) ∧
      Approx (1 / 2 ^ 18) 1 (Real.cos (val (part i n * tau))) (cos (part i n * tau)) := by
  obtain ⟨hpart, hlow, hhigh⟩ := within_part hi.le (Nat.zero_lt_of_lt hi) hn
  have hpi₁ := Real.pi_gt_three
  have hpi₂ := Real.pi_lt_four
  have htau := abs_le.mp approx_tau.2.2
  norm_num at htau
  have height : Held Float32 (2 ^ 3) := held_two_pow (by decide)
  obtain ⟨hangle, h0, h8⟩ : Within 0 (2 ^ 3) (part i n * tau) := by
    apply within_mul held_zero height hpart approx_tau.1
    · exact mul_nonneg hlow (by linarith)
    · have := approx_tau.abs_val_le
      have htau' := (le_abs_self _).trans this
      norm_num at htau'
      nlinarith
  obtain ⟨hsin, hcos⟩ := approx_sin_cos hangle h0 (h8.trans (by norm_num))
  exact ⟨hsin.mono (by norm_num) le_rfl, hcos.mono (by norm_num) le_rfl⟩

/-- A thick ring about a direction has unit normals. -/
lemma norm_normal_sub_one_le (hn : direction.normalize.Around (1 / 2 ^ 17) d) (hd : ‖d‖ = 1)
    (hradius : IsFinite radius) (hlow : 2 ^ (-68 : ℤ) ≤ val radius)
    (hhigh : val radius < 2 ^ (40 : ℤ)) (hi : i < n) (hcount : n < 2 ^ 64) :
    |‖(offset direction radius n i).normalize.real‖ - 1| ≤ 1 / 1000 := by
  have hpos : 0 < val radius := lt_of_lt_of_le (by positivity) hlow
  obtain ⟨u, w, hu, hw, huw, hperpendicular, hbitangent⟩ := Vec3.exists_frame hn hd
  obtain ⟨hsin, hcos⟩ := approx_sin_cos_of_angle hi hcount
  have hoffset := around_turned hperpendicular hbitangent hu hw (by norm_num) (by norm_num) hcos
    hsin hradius (le_trans (by norm_num) hlow) hhigh
  set φ := val (part i n * tau)
  have hnorm : ‖(Real.cos φ * val radius) • u + (Real.sin φ * val radius) • w‖ = val radius := by
    rw [mul_comm, mul_comm (Real.sin φ), mul_smul, mul_smul, ← smul_add, norm_smul,
      norm_turned hu hw huw, mul_one, Real.norm_of_nonneg hpos.le]
  have hbelow := hoffset.le_norm
  have habove := hoffset.norm_le
  rw [hnorm] at hbelow habove
  apply Vec3.norm_normalize_sub_one_le hoffset.1
  · refine le_trans ?_ hbelow
    norm_num at hlow ⊢
    linarith
  · refine habove.trans_lt ?_
    norm_num at hhigh ⊢
    linarith

/-- The sum of two numbers by small factors. -/
lemma abs_val_weighted_le {x y p q : Float32} (hk : -140 ≤ k) (hk' : k ≤ 120) (hx : Below 1 x)
    (hy : Below 1 y) (hp : IsFinite p) (hple : |val p| ≤ 2 ^ k) (hq : IsFinite q)
    (hqle : |val q| ≤ 2 ^ k) :
    IsFinite (x * p + y * q) ∧ |val (x * p + y * q)| ≤ 2 ^ (k + 2) := by
  have hone : (2 : ℝ) ^ (k + 1) = 2 ^ 1 * 2 ^ k := by
    rw [zpow_add_one₀ (by norm_num)]
    ring
  have htwo : (2 : ℝ) ^ (k + 2) = 2 ^ (k + 1) + 2 ^ (k + 1) := by
    rw [zpow_add₀ (by norm_num), zpow_add₀ (by norm_num)]
    norm_num
    ring
  have hproduct : ∀ {x p : Float32}, Below 1 x → IsFinite p → |val p| ≤ 2 ^ k →
      IsFinite (x * p) ∧ |val (x * p)| ≤ 2 ^ (k + 1) := by
    intro x p hx hp hple
    apply abs_val_mul_le hx.1 hp (by omega) (by omega)
    rw [abs_mul, hone]
    exact mul_le_mul hx.2 hple (abs_nonneg _) (by positivity)
  obtain ⟨hxp, hxple⟩ := hproduct hx hp hple
  obtain ⟨hyq, hyqle⟩ := hproduct hy hq hqle
  apply abs_val_add_le hxp hyq (by omega) (by omega)
  rw [htwo]
  exact (abs_add_le _ _).trans (add_le_add hxple hyqle)

/-- The sum of two vectors by small factors. -/
lemma norm_weighted_le {p q : Float32} (hk : -140 ≤ k) (hk' : k ≤ 120) (ht : t.Boxed 1)
    (hb : b.Boxed 1) (hp : IsFinite p) (hple : |val p| ≤ 2 ^ k) (hq : IsFinite q)
    (hqle : |val q| ≤ 2 ^ k) :
    (t.scale p + b.scale q).Finite ∧ ‖(t.scale p + b.scale q).real‖ ≤ 2 ^ (k + 3) := by
  obtain ⟨hx, hxle⟩ := abs_val_weighted_le hk hk' ht.x hb.x hp hple hq hqle
  obtain ⟨hy, hyle⟩ := abs_val_weighted_le hk hk' ht.y hb.y hp hple hq hqle
  obtain ⟨hz, hzle⟩ := abs_val_weighted_le hk hk' ht.z hb.z hp hple hq hqle
  have hpow : 2 * (2 : ℝ) ^ (k + 2) = 2 ^ (k + 3) := by
    rw [← zpow_one_add₀ (by norm_num)]
    congr 1
    ring
  have hnorm := Vec3.norm_real_le (v := t.scale p + b.scale q) hxle hyle hzle
  exact ⟨⟨hx, hy, hz⟩, hnorm.trans_eq hpow⟩

/-- A ring is at most as large as its radius allows, whatever its frame. -/
lemma norm_offset_le (hdirection : direction.Finite) (hradius : IsFinite radius) (hk : -140 ≤ k)
    (hk' : k ≤ 110) (hle : |val radius| ≤ 2 ^ k) (hi : i < n) (hn : n < 2 ^ 64) :
    (offset direction radius n i).Finite ∧ ‖(offset direction radius n i).real‖ ≤ 2 ^ (k + 4) := by
  obtain ⟨hsin, hcos⟩ := approx_sin_cos_of_angle hi hn
  have hweight : ∀ {z : Float32} {s : ℝ}, Approx (1 / 2 ^ 18) 1 s z →
      IsFinite (z * radius) ∧ |val (z * radius)| ≤ 2 ^ (k + 1) := by
    intro z s hz
    apply abs_val_mul_le hz.1 hradius (by omega) (by omega)
    rw [abs_mul, zpow_add_one₀ (by norm_num), mul_comm]
    exact mul_le_mul hle (hz.abs_val_le.trans (by norm_num)) (abs_nonneg _) (by positivity)
  obtain ⟨hc, hcle⟩ := hweight hcos
  obtain ⟨hs, hsle⟩ := hweight hsin
  have hsum := norm_weighted_le (k := k + 1) (by omega) (by omega)
    (Vec3.boxed_perpendicular hdirection) (Vec3.boxed_bitangent hdirection) hc hcle hs hsle
  rwa [add_assoc] at hsum

/-- Without a direction a ring is its center. -/
lemma null_offset (hdirection : direction.Null) (hradius : Below 40 radius) (hi : i < n)
    (hn : n < 2 ^ 64) : (offset direction radius n i).Null := by
  obtain ⟨hsin, hcos⟩ := approx_sin_cos_of_angle hi hn
  have hweight : ∀ {z : Float32} {s : ℝ}, Approx (1 / 2 ^ 18) 1 s z → IsFinite (z * radius) := by
    intro z s hz
    have hbelow : Below 1 z := ⟨hz.1, hz.abs_val_le.trans (by norm_num)⟩
    exact (hbelow.mul_single hradius (n := 41) (by norm_num) (by norm_num)).1
  exact (hdirection.perpendicular.scale (hweight hcos)).add
    (hdirection.bitangent.scale (hweight hsin))

end Mesh

/-! ## Curves of moderate size -/

namespace Handles

/-- Automatic handles stay near the knots. -/
lemma boxed_of_mem_auto {knots : List Vec3} (hknots : ∀ p ∈ knots, p.Boxed 10) {h : Handles}
    (hh : h ∈ auto knots) : h.left.Boxed 15 ∧ h.right.Boxed 15 := by
  have hchain : knots.IsChain fun _ _ => True := List.isChain_iff_getElem.mpr fun _ _ => trivial
  obtain ⟨p, hp, before, after, rfl, hbefore, hafter⟩ := exists_of_mem_auto hh hchain
  have hp := hknots p hp
  have hbefore : ∀ a ∈ before, a.Boxed 10 := fun a ha => hknots a (hbefore a ha).1
  have hafter : ∀ a ∈ after, a.Boxed 10 := fun a ha => hknots a (hafter a ha).1
  have htangent := boxed_tangent (hp.mono (by norm_num))
    (fun a ha => (hbefore a ha).mono (by norm_num)) fun a ha => (hafter a ha).mono (by norm_num)
  have hway : ∀ {neighbour : Option Vec3}, (∀ a ∈ neighbour, a.Boxed 10) →
      Below 12 (reach p neighbour) := fun h => below_reach_of_way (n := 11) (by norm_num)
    fun a ha => hp.sub (h a ha) (by norm_num) (by norm_num) (by norm_num)
  have hleft := htangent.scale (hway hbefore) (n := 13) le_rfl (by norm_num)
  have hright := htangent.scale (hway hafter) (n := 13) le_rfl (by norm_num)
  exact ⟨hp.sub hleft (by norm_num) (by norm_num) (by norm_num),
    hp.add hright (by norm_num) (by norm_num) (by norm_num)⟩

end Handles

namespace Branch

variable {b : Branch} {resolution sides n : ℕ}

/-- Knots up to `2^10` in each coordinate and in the radius, handles near them, and a thickness of
at most one for a radius of one. -/
structure Bounded (b : Branch) : Prop where
  position : ∀ k ∈ b.knots, k.position.Boxed 10
  left : ∀ k ∈ b.knots, k.left.Boxed 15
  right : ∀ k ∈ b.knots, k.right.Boxed 15
  radius : ∀ k ∈ b.knots, Below 10 k.radius
  bevel : Below 0 b.bevel

/-- The handles of a branch through given knots need no bounds of their own. -/
lemma bounded_ofSamples {samples : List Sample} {depth : ℕ} {bevel : Float32}
    (hposition : ∀ s ∈ samples, s.position.Boxed 10) (hradius : ∀ s ∈ samples, Below 10 s.radius)
    (hbevel : Below 0 bevel) : (ofSamples samples depth bevel).Bounded := by
  have hknot : ∀ k ∈ (ofSamples samples depth bevel).knots, k.position.Boxed 10 ∧
      k.left.Boxed 15 ∧ k.right.Boxed 15 ∧ Below 10 k.radius := by
    intro k hk
    obtain ⟨⟨h, s⟩, hmem, rfl⟩ := List.mem_map.mp hk
    obtain ⟨hhandles, hs⟩ := List.of_mem_zip hmem
    have hboxed := Handles.boxed_of_mem_auto (fun p hp => by
      obtain ⟨s, hs, rfl⟩ := List.mem_map.mp hp
      exact hposition s hs) hhandles
    exact ⟨hposition s hs, hboxed.1, hboxed.2, hradius s hs⟩
  exact ⟨fun k hk => (hknot k hk).1, fun k hk => (hknot k hk).2.1, fun k hk => (hknot k hk).2.2.1,
    fun k hk => (hknot k hk).2.2.2, hbevel⟩

/-- A point of a span is bounded by the four points that it is made of. -/
lemma boxed_bezier {p₀ h₀ h₁ p₁ : Vec3} {t : Float32} (hp₀ : p₀.Boxed 10) (hh₀ : h₀.Boxed 15)
    (hh₁ : h₁.Boxed 15) (hp₁ : p₁.Boxed 10) (ht : Within 0 1 t) :
    (bezier p₀ h₀ h₁ p₁ t).Boxed 20 := by
  have hu : Within 0 1 (1 - t) := by
    apply within_sub held_zero held_one below_one.1 ht.1 <;> rw [val_one] <;>
      linarith [ht.2.1, ht.2.2]
  have hu : Below 0 (1 - t) := hu.below (by norm_num) (by norm_num)
  have ht : Below 0 t := ht.below (by norm_num) (by norm_num)
  have hthree : Below 2 (3 : Float32) := (below_iff_toNat_le (by norm_num)).mpr (by decide)
  have hunit : ∀ {x y z : Float32}, Below 0 x → Below 0 y → Below 0 z → Below 0 (x * y * z) :=
    fun hx hy hz => (hx.mul_single hy le_rfl (by norm_num)).mul_single hz le_rfl (by norm_num)
  have htriple : ∀ {x y z : Float32}, Below 0 x → Below 0 y → Below 0 z →
      Below 2 (3 * x * y * z) := fun hx hy hz =>
    ((hthree.mul_single hx le_rfl (by norm_num)).mul_single hy le_rfl (by norm_num)).mul_single hz
      le_rfl (by norm_num)
  have h₀ := hp₀.scale (hunit hu hu hu) (n := 10) le_rfl (by norm_num)
  have h₁ := hh₀.scale (htriple hu hu ht) (n := 17) le_rfl (by norm_num)
  have h₂ := hh₁.scale (htriple hu ht ht) (n := 17) le_rfl (by norm_num)
  have h₃ := hp₁.scale (hunit ht ht ht) (n := 10) le_rfl (by norm_num)
  exact ((h₀.add h₁ (n := 18) (by norm_num) (by norm_num) (by norm_num)).add h₂ (n := 19)
    (by norm_num) (by norm_num) (by norm_num)).add h₃ (by norm_num) (by norm_num) (by norm_num)

/-- The samples of a curve of moderate size. -/
lemma Bounded.sample (hb : b.Bounded) (hresolution : resolution < 2 ^ 64) {s : Sample}
    (hs : s ∈ b.sample resolution) : s.position.Boxed 20 ∧ Below 13 s.radius := by
  rcases List.mem_append.mp hs with hs | hs
  · obtain ⟨⟨k, l⟩, hspan, hs⟩ := List.mem_flatMap.mp hs
    obtain ⟨i, hi, rfl⟩ := List.mem_map.mp hs
    obtain ⟨hk, hl⟩ := List.of_mem_zip hspan
    have hl := List.mem_of_mem_tail hl
    have ht : Within 0 1 (Mesh.part i (max resolution 1)) :=
      Mesh.within_part (List.mem_range.mp hi).le (by omega) (by omega)
    refine ⟨boxed_bezier (hb.position k hk) (hb.right k hk) (hb.left l hl) (hb.position l hl) ht,
      ?_⟩
    have hrise : Below 11 (l.radius - k.radius) :=
      (hb.radius l hl).sub_single (hb.radius k hk) (by norm_num) (by norm_num) (by norm_num)
    have hpart := hrise.mul_single (ht.below (k := 0) (by norm_num) (by norm_num)) (n := 11) le_rfl
      (by norm_num)
    exact (hb.radius k hk).add_single hpart (by norm_num) (by norm_num) (by norm_num)
  · cases hlast : b.knots.getLast? with
    | none =>
      rw [hlast] at hs
      cases hs
    | some k =>
      rw [hlast] at hs
      obtain rfl := List.mem_singleton.mp hs
      have hk := List.mem_of_getLast? hlast
      exact ⟨(hb.position k hk).mono (by norm_num), (hb.radius k hk).mono (by norm_num)⟩

/-- A vertex of a tube belongs to the ring of a sample. -/
lemma exists_ring_of_vertex {a : Vertex} (ha : (b.toMesh resolution sides).vertices[n]? = some a) :
    ∃ s ∈ b.sample resolution, ∃ p ∈ b.sample resolution, ∃ q ∈ b.sample resolution,
      (b.sample resolution)[n / sides]? = some s ∧
      (headings (b.sample resolution))[n / sides]? = some (q.position - p.position) ∧
      ∃ v, (Mesh.ring s.position (q.position - p.position).normalize (s.radius * b.bevel) sides
        v)[n % sides]? = some a := by
  by_cases hempty : (b.sample resolution).length < 2 ∨ sides < 3
  · rw [toMesh, if_pos hempty] at ha
    simp [Mesh.empty] at ha
  · push Not at hempty
    obtain ⟨hsamples, hsides⟩ := hempty
    have hplace : n / sides * sides + n % sides = n := Nat.div_add_mod' n sides
    rw [← hplace, vertex_toMesh hsamples hsides (Nat.mod_lt n (by omega))] at ha
    obtain ⟨ring, hring, ha⟩ := Option.bind_eq_some_iff.mp ha
    have hi : n / sides < (b.sample resolution).length := by
      rw [← b.length_rings (b.sample resolution) sides]
      exact (List.getElem?_eq_some_iff.mp hring).1
    obtain ⟨s, hs⟩ : ∃ s, (b.sample resolution)[n / sides]? = some s :=
      ⟨_, List.getElem?_eq_getElem hi⟩
    obtain ⟨p, hp⟩ : ∃ p, (b.sample resolution)[n / sides - 1]? = some p :=
      ⟨_, List.getElem?_eq_getElem (by omega)⟩
    obtain ⟨q, hq⟩ : ∃ q, (b.sample resolution)[min (n / sides + 1)
        ((b.sample resolution).length - 1)]? = some q :=
      ⟨_, List.getElem?_eq_getElem (by omega)⟩
    have hheading := getElem?_headings hi hp hq
    rw [getElem?_rings hs hheading, Option.some_inj] at hring
    subst hring
    exact ⟨s, List.mem_of_getElem? hs, p, List.mem_of_getElem? hp, q, List.mem_of_getElem? hq, hs,
      hheading, _, ha⟩

/-- **Normals of a tube.**  Take a curve of moderate size.  The normal of every vertex is finite.
Where the way between the samples before and after has a positive length, and the thickness of the
tube is at least `2^-68`, the normal has a length of one, up to a thousandth.  Where there is no way
between these samples, as where the curve turns back on itself, the normal is zero.  Where the
thickness is at most `2^-80`, the normal is next to nothing. -/
theorem normals_of_bounded (hb : b.Bounded) (hresolution : resolution < 2 ^ 64)
    (hsides : sides < 2 ^ 64) {a : Vertex}
    (ha : (b.toMesh resolution sides).vertices[n]? = some a) :
    ∃ s heading, (b.sample resolution)[n / sides]? = some s ∧
      (headings (b.sample resolution))[n / sides]? = some heading ∧
      a.normal.isFinite = true ∧
      (0 < heading.length → 2 ^ (-68 : ℤ) ≤ val (s.radius * b.bevel) →
        |‖a.normal.real‖ - 1| ≤ 1 / 1000) ∧
      (heading.real = 0 → a.normal.real = 0) ∧
      (|val (s.radius * b.bevel)| ≤ 2 ^ (-80 : ℤ) → ‖a.normal.real‖ ≤ 2 ^ (-76 : ℤ)) := by
  obtain ⟨s, hs, p, hp, q, hq, hsample, hheading, v, hring⟩ := exists_ring_of_vertex ha
  obtain ⟨hplace, hnormal⟩ := Mesh.normal_of_ring hring
  have hway : (q.position - p.position).Boxed 21 := (hb.sample hresolution hq).1.sub
    (hb.sample hresolution hp).1 (by norm_num) (by norm_num) (by norm_num)
  have hdirection := Vec3.boxed_normalize hway.finite
  have hthickness : Below 13 (s.radius * b.bevel) :=
    (hb.sample hresolution hs).2.mul_single hb.bevel le_rfl (by norm_num)
  refine ⟨s, _, hsample, hheading, ?_⟩
  generalize q.position - p.position = heading at hnormal hway hdirection ⊢
  generalize s.radius * b.bevel = radius at hnormal hthickness ⊢
  refine ⟨?_, fun hlength hlow => ?_, fun hzero => ?_, fun hthin => ?_⟩
  · have hle : |val radius| ≤ 2 ^ (13 : ℤ) := by exact_mod_cast hthickness.2
    have hoffset := Mesh.norm_offset_le hdirection.finite hthickness.1 (by norm_num) (by norm_num)
      hle hplace hsides
    rw [hnormal, Vec3.isFinite_eq_true_iff]
    exact (Vec3.boxed_normalize hoffset.1).finite
  · obtain ⟨d, hd, hn⟩ := Vec3.exists_direction hway.finite
      (hway.norm_le.trans_lt (by norm_num)) hlength
    have hhigh : val radius < 2 ^ (40 : ℤ) :=
      ((le_abs_self _).trans hthickness.2).trans_lt (by norm_num)
    rw [hnormal]
    exact Mesh.norm_normal_sub_one_le hn hd hthickness.1 hlow hhigh hplace hsides
  · have hnull := Vec3.null_of_real_eq_zero hway.finite hzero
    have hoffset := Mesh.null_offset (hnull.normalize_eq ▸ hnull) (hthickness.mono (by norm_num))
      hplace hsides
    rw [hnormal, hoffset.normalize_eq]
    exact hoffset.real_eq_zero
  · obtain ⟨hfinite, hle⟩ := Mesh.norm_offset_le hdirection.finite hthickness.1 (by norm_num)
      (by norm_num) hthin hplace hsides
    have hle : ‖(Mesh.offset heading.normalize radius sides (n % sides)).real‖ ≤ 2 ^ (-76 : ℤ) :=
      hle.trans_eq (by norm_num)
    rw [hnormal, Vec3.normalize_of_small hfinite hle]
    exact hle

/-- A straight tube from the ground to the height of one. -/
def post (radius : Float32) : List Sample :=
  [⟨⟨0, 0, 0⟩, radius⟩, ⟨⟨0, 0, 1⟩, radius⟩]

/-- A tube to the height of one and back to the ground. -/
def hairpin : List Sample :=
  [⟨⟨0, 0, 0⟩, 1⟩, ⟨⟨0, 0, 1⟩, 1⟩, ⟨⟨0, 0, 0⟩, 1⟩]

/-- Bounds that are read off the patterns of the numbers. -/
lemma bounded_of_size_le {samples : List Sample} (h : ∀ s ∈ samples,
    ∀ x ∈ [s.position.x, s.position.y, s.position.z, s.radius],
      (x.toBits &&& 0x7FFFFFFF).toNat ≤ (10 + 127) * 2 ^ 23) :
    (ofSamples samples 0 1).Bounded := by
  have hbelow : ∀ s ∈ samples, ∀ x ∈ [s.position.x, s.position.y, s.position.z, s.radius],
      Below 10 x := fun s hs x hx => (below_iff_toNat_le (by norm_num)).mpr (h s hs x hx)
  simp only [List.forall_mem_cons] at hbelow
  exact bounded_ofSamples (fun s hs => ⟨(hbelow s hs).1, (hbelow s hs).2.1, (hbelow s hs).2.2.1⟩)
    (fun s hs => (hbelow s hs).2.2.2.1) below_one

lemma abs_val_tiny : IsFinite (1e-25 : Float32) ∧ |val (1e-25 : Float32)| ≤ 2 ^ (-80 : ℤ) := by
  have hbits : ((1e-25 : Float32).toBits &&& 0x7FFFFFFF).toNat = 0x15F79688 := by decide +kernel
  have hfinite : IsFinite (1e-25 : Float32) := isFinite_iff.mp (by decide +kernel)
  refine ⟨hfinite, ?_⟩
  rw [abs_val_single hfinite, hbits]
  norm_num [magnitude_binary32]

/-- A post has a unit normal at its first vertex.  A thin one has next to none there, and neither
has a hairpin where it turns back. -/
theorem normals_of_bounded_posts :
    (∃ a, ((ofSamples (post 1) 0 1).toMesh 1 3).vertices[0]? = some a ∧
      |‖a.normal.real‖ - 1| ≤ 1 / 1000) ∧
    (∃ a, ((ofSamples (post 1e-25) 0 1).toMesh 1 3).vertices[0]? = some a ∧
      ‖a.normal.real‖ ≤ 2 ^ (-76 : ℤ)) ∧
    ∃ a, ((ofSamples hairpin 0 1).toMesh 1 3).vertices[3]? = some a ∧ a.normal.real = 0 := by
  refine ⟨?_, ?_, ?_⟩
  · obtain ⟨a, ha⟩ : ∃ a, ((ofSamples (post 1) 0 1).toMesh 1 3).vertices[0]? = some a :=
      Option.isSome_iff_exists.mp (by decide +kernel)
    obtain ⟨s, heading, hs, hheading, -, hunit, -⟩ :=
      normals_of_bounded (bounded_of_size_le (by decide +kernel)) (by norm_num) (by norm_num) ha
    have hsample : ((ofSamples (post 1) 0 1).sample 1)[0 / 3]? = some ⟨⟨0, 0, 0⟩, 1⟩ := by
      decide +kernel
    have hway : (headings ((ofSamples (post 1) 0 1).sample 1))[0 / 3]? = some ⟨0, 0, 1⟩ := by
      decide +kernel
    obtain rfl := Option.some_inj.mp (hs.symm.trans hsample)
    obtain rfl := Option.some_inj.mp (hheading.symm.trans hway)
    have hthickness : (1 : Float32) * (ofSamples (post 1) 0 1).bevel = 1 := by decide +kernel
    refine ⟨a, ha, hunit (by decide +kernel) ?_⟩
    rw [hthickness, val_one]
    norm_num
  · obtain ⟨a, ha⟩ : ∃ a, ((ofSamples (post 1e-25) 0 1).toMesh 1 3).vertices[0]? = some a :=
      Option.isSome_iff_exists.mp (by decide +kernel)
    obtain ⟨s, heading, hs, -, -, -, -, hthin⟩ :=
      normals_of_bounded (bounded_of_size_le (by decide +kernel)) (by norm_num) (by norm_num) ha
    have hsample : ((ofSamples (post 1e-25) 0 1).sample 1)[0 / 3]? = some ⟨⟨0, 0, 0⟩, 1e-25⟩ := by
      decide +kernel
    obtain rfl := Option.some_inj.mp (hs.symm.trans hsample)
    have hthickness : (1e-25 : Float32) * (ofSamples (post 1e-25) 0 1).bevel = 1e-25 := by
      decide +kernel
    refine ⟨a, ha, hthin ?_⟩
    rw [hthickness]
    exact abs_val_tiny.2
  · obtain ⟨a, ha⟩ : ∃ a, ((ofSamples hairpin 0 1).toMesh 1 3).vertices[3]? = some a :=
      Option.isSome_iff_exists.mp (by decide +kernel)
    obtain ⟨s, heading, -, hheading, -, -, hnull, -⟩ :=
      normals_of_bounded (bounded_of_size_le (by decide +kernel)) (by norm_num) (by norm_num) ha
    have hway : (headings ((ofSamples hairpin 0 1).sample 1))[3 / 3]? = some Vec3.zero := by
      decide +kernel
    obtain rfl := Option.some_inj.mp (hheading.symm.trans hway)
    exact ⟨a, ha, hnull (norm_eq_zero.mp (le_antisymm
      (by simpa using Vec3.around_zero.norm_le) (norm_nonneg _)))⟩

/-- Not all normals of a tube have a length of one, not even on a straight tube: as thin as this
one, they are as short as it is thick. -/
theorem exists_normal_not_unit : ∃ (samples : List Sample) (bevel : Float32) (a : Vertex),
    (∀ s ∈ samples, s.position.x.abs ≤ 1000 ∧ s.position.y.abs ≤ 1000 ∧ s.position.z.abs ≤ 1000 ∧
      0 < s.radius ∧ s.radius ≤ 1000) ∧
    (∀ p ∈ samples.zip samples.tail, (0.001 : Float32) ≤ p.1.position.distance p.2.position) ∧
    (0 < bevel ∧ bevel ≤ 1) ∧
    ((ofSamples samples 0 bevel).toMesh 1 3).vertices[0]? = some a ∧
    1 / 1000 < |‖a.normal.real‖ - 1| := by
  refine ⟨post 1e-25, 1, ⟨⟨0, 1e-25, 0⟩, ⟨0, 1e-25, 0⟩, 0, 0⟩, by decide +kernel,
    by decide +kernel, by decide +kernel, by decide +kernel, ?_⟩
  have hzero : |val (0 : Float32)| ≤ 2 ^ (-80 : ℤ) := by
    rw [val_zero, abs_zero]
    positivity
  have hnorm := Vec3.norm_real_le (v := ⟨0, 1e-25, 0⟩) hzero abs_val_tiny.2 hzero
  rw [abs_sub_comm, lt_abs]
  left
  norm_num at hnorm ⊢
  linarith

end Branch

end Arbor
