import Arbor.Proofs.Number.Trigonometry
import Arbor.Proofs.Space.Direction
import Arbor.Shape.Mesh

/-!
# Rings are circles

The vertices of a ring about a direction are those of a regular polygon: up to rounding, they lie
at equal angles on a circle at a right angle to the direction, and the normals point away from the
center (`around_ring`).  The frame of the circle is chosen by the height of the direction, so near
nine tenths, where the choice changes, it is not told which of two circles is taken.
-/

namespace Arbor

open Number

namespace Space

open scoped RealInnerProductSpace

variable {d : Space}

noncomputable def axisX : Space := !₂[1, 0, 0]

noncomputable def axisZ : Space := !₂[0, 0, 1]

/-- The unit vector at a right angle to a direction that a ring starts with. -/
noncomputable def across (d : Space) : Space :=
  if |d 2| < 0.9 then unit (cross d axisZ) else unit (cross d axisX)

lemma across_eq (d : Space) :
    across d = if |d 2| < 9 / 10 then unit (cross d axisZ) else unit (cross d axisX) := by
  rw [across, show (0.9 : ℝ) = 9 / 10 by norm_num]

lemma unit_smul {t : ℝ} (ht : 0 < t) (hd : ‖d‖ = 1) : unit (t • d) = d := by
  rw [unit, norm_smul, hd, mul_one, Real.norm_of_nonneg ht.le, smul_smul, inv_mul_cancel₀ ht.ne',
    one_smul]

lemma norm_axisX : ‖axisX‖ = 1 := by
  rw [← sq_eq_sq₀ (norm_nonneg _) zero_le_one, norm_sq]
  simp [axisX]

lemma norm_axisZ : ‖axisZ‖ = 1 := by
  rw [← sq_eq_sq₀ (norm_nonneg _) zero_le_one, norm_sq]
  simp [axisZ]

lemma inner_cross_left (a b : Space) : ⟪a, cross a b⟫ = 0 := by
  rw [inner_eq, cross_zero, cross_one, cross_two]
  ring

lemma inner_cross_right (a b : Space) : ⟪b, cross a b⟫ = 0 := by
  rw [inner_eq, cross_zero, cross_one, cross_two]
  ring

/-- The vector product of two unit vectors at a right angle is one as well. -/
lemma norm_cross_of_inner {a b : Space} (ha : ‖a‖ = 1) (hb : ‖b‖ = 1) (h : ⟪a, b⟫ = 0) :
    ‖cross a b‖ = 1 := by
  rw [← sq_eq_sq₀ (norm_nonneg _) zero_le_one, norm_cross_sq, ha, hb, h]
  norm_num

/-- A direction is far enough from an axis that it does not nearly follow. -/
lemma le_norm_cross {e : Space} (hd : ‖d‖ = 1) (he : ‖e‖ = 1) (h : |⟪d, e⟫| ≤ 902 / 1000) :
    43 / 100 ≤ ‖cross d e‖ := by
  have hsq : ⟪d, e⟫ ^ 2 ≤ (902 / 1000) ^ 2 := sq_le_sq' (abs_le.mp h).1 (abs_le.mp h).2
  rw [← sq_le_sq₀ (by norm_num) (norm_nonneg _), norm_cross_sq, hd, he]
  norm_num at hsq ⊢
  linarith

lemma inner_axisX (d : Space) : ⟪d, axisX⟫ = d 0 := by
  rw [inner_eq]
  simp [axisX]

lemma inner_axisZ (d : Space) : ⟪d, axisZ⟫ = d 2 := by
  rw [inner_eq]
  simp [axisZ]

/-- The axis that is taken is far enough from the direction. -/
lemma le_norm_cross_axisZ (hd : ‖d‖ = 1) (h : |d 2| ≤ 902 / 1000) :
    43 / 100 ≤ ‖cross d axisZ‖ :=
  le_norm_cross hd norm_axisZ (by rwa [inner_axisZ])

lemma le_norm_cross_axisX (hd : ‖d‖ = 1) (h : 898 / 1000 ≤ |d 2|) :
    43 / 100 ≤ ‖cross d axisX‖ := by
  have hsq : (898 / 1000) ^ 2 ≤ d 2 ^ 2 := by
    rw [← sq_abs (d 2)]
    exact pow_le_pow_left₀ (by norm_num) h 2
  have hnorm := norm_sq d
  rw [hd] at hnorm
  apply le_norm_cross hd norm_axisX
  rw [inner_axisX]
  refine abs_le_of_sq_le_sq ?_ (by norm_num)
  norm_num at hsq hnorm ⊢
  nlinarith [sq_nonneg (d 1)]

lemma norm_across (hd : ‖d‖ = 1) : ‖across d‖ = 1 := by
  have hne : ∀ {v : Space}, 43 / 100 ≤ ‖v‖ → v ≠ 0 := fun h =>
    norm_pos_iff.mp (lt_of_lt_of_le (by norm_num) h)
  rw [across_eq]
  split_ifs with h
  · exact norm_unit (hne (le_norm_cross_axisZ hd (h.le.trans (by norm_num))))
  · exact norm_unit (hne (le_norm_cross_axisX hd (le_trans (by norm_num) (not_lt.mp h))))

lemma inner_across (d : Space) : ⟪d, across d⟫ = 0 := by
  unfold across unit
  split_ifs <;> rw [inner_smul_right, inner_cross_left, mul_zero]

lemma norm_cross_across (hd : ‖d‖ = 1) : ‖cross d (across d)‖ = 1 :=
  norm_cross_of_inner hd (norm_across hd) (inner_across d)

lemma inner_across_cross (d : Space) : ⟪across d, cross d (across d)⟫ = 0 :=
  inner_cross_right _ _

/-- The direction from the center of a ring about `d` at an angle. -/
noncomputable def spoke (d : Space) (angle : ℝ) : Space :=
  Real.cos angle • across d + Real.sin angle • cross d (across d)

/-- Two unit vectors at a right angle span a circle. -/
lemma norm_turned {u w : Space} (hu : ‖u‖ = 1) (hw : ‖w‖ = 1) (h : ⟪u, w⟫ = 0) (angle : ℝ) :
    ‖Real.cos angle • u + Real.sin angle • w‖ = 1 := by
  rw [← sq_eq_sq₀ (norm_nonneg _) zero_le_one, norm_add_sq_real, norm_smul, norm_smul,
    inner_smul_left, inner_smul_right, h, hu, hw, Real.norm_eq_abs, Real.norm_eq_abs, mul_one,
    mul_one, sq_abs, sq_abs, mul_zero, mul_zero, mul_zero, add_zero, Real.cos_sq_add_sin_sq,
    one_pow]

lemma norm_spoke (hd : ‖d‖ = 1) (angle : ℝ) : ‖spoke d angle‖ = 1 :=
  norm_turned (norm_across hd) (norm_cross_across hd) (inner_across_cross d) angle

end Space

namespace Vec3

open Space

variable {d : Space} {v : Vec3} {η : ℝ}

lemma around_zero : Around 0 0 zero := by
  have hreal : zero.real = 0 := by
    ext i
    fin_cases i <;> exact val_zero
  rw [← hreal]
  exact Finite.around ⟨below_zero.1, below_zero.1, below_zero.1⟩

lemma around_unitX : Around 0 axisX unitX := by
  have hreal : unitX.real = axisX := by
    rw [real, axisX]
    simp only [unitX, val_zero, val_one]
  rw [← hreal]
  exact Finite.around ⟨below_one.1, below_zero.1, below_zero.1⟩

lemma around_unitZ : Around 0 axisZ unitZ := by
  have hreal : unitZ.real = axisZ := by
    rw [real, axisZ]
    simp only [unitZ, val_zero, val_one]
  rw [← hreal]
  exact Finite.around ⟨below_zero.1, below_zero.1, below_one.1⟩

lemma val_nine_tenths : IsFinite (0.9 : Float32) ∧ |val (0.9 : Float32) - 9 / 10| ≤ 1 / 2 ^ 24 := by
  have hbits : (0.9 : Float32).toBits.toNat = 0x3F666666 := by decide +kernel
  have hfinite : IsFinite (0.9 : Float32) := isFinite_iff.mp (by decide +kernel)
  refine ⟨hfinite, ?_⟩
  rw [val_of_lt hfinite (by rw [hbits]; norm_num), hbits]
  norm_num [magnitude_binary32, abs_le]

/-- A direction that is normalized again. -/
lemma Around.normalize_again (h : Around η d v) (hd : ‖d‖ = 1) (hη : η ≤ 1 / 64) :
    Around (1 / 2 ^ 17 + 2 * η) d v.normalize := by
  have hnormalize := h.normalize (by rw [hd]; linarith) (by rw [hd]; norm_num)
    (by rw [hd]; norm_num)
  have hunit : unit d = d := by
    have := unit_smul one_pos hd
    rwa [one_smul] at this
  rwa [hunit, hd, div_one] at hnormalize

/-- The vector product with an axis, normalized. -/
lemma Around.normalize_cross_axis {axis : Vec3} {e : Space} {n : Vec3} {ν : ℝ} (hn : Around ν d n)
    (hd : ‖d‖ = 1) (hν : ν ≤ 1 / 16) (haxis : Around 0 e axis) (he : ‖e‖ = 1)
    (hfar : 43 / 100 ≤ ‖Space.cross d e‖) :
    Around (5 * ν + 1 / 2 ^ 16) (unit (Space.cross d e)) (n.cross axis).normalize := by
  have hν0 : 0 ≤ ν := (norm_nonneg _).trans hn.2
  have hcross := hn.cross haxis 1 (by decide) (by rw [hd, he]; norm_num; linarith)
  rw [hd, he] at hcross
  norm_num at hcross
  have hle : ‖Space.cross d e‖ ≤ 1 := by
    have := norm_cross_le d e
    rwa [hd, he, one_mul] at this
  have hpos : 0 < ‖Space.cross d e‖ := lt_of_lt_of_le (by norm_num) hfar
  refine (hcross.normalize (by linarith) ?_ ?_).mono ?_
  · exact le_trans (by norm_num) hfar
  · exact hle.trans (by norm_num)
  · have hdiv : 2 * (ν + 3 / 4194304) / ‖Space.cross d e‖ ≤ 2 * (ν + 3 / 4194304) / (43 / 100) := by
      gcongr
    norm_num at hdiv ⊢
    linarith

/-- The vector product of two unit vectors at a right angle, normalized. -/
lemma Around.normalize_cross {n t : Vec3} {u : Space} {ν τ : ℝ} (hn : n.Around ν d)
    (ht : t.Around τ u) (hd : ‖d‖ = 1) (hu : ‖u‖ = 1) (hright : ‖Space.cross d u‖ = 1)
    (hν : ν ≤ 1 / 16) (hτ : τ ≤ 1 / 4) :
    Around (2 * (ν + τ + ν * τ) + 1 / 2 ^ 16) (Space.cross d u) (n.cross t).normalize := by
  have hν0 : 0 ≤ ν := (norm_nonneg _).trans hn.2
  have hτ0 : 0 ≤ τ := (norm_nonneg _).trans ht.2
  have hproduct : ν * τ ≤ 1 / 16 * (1 / 4) := mul_le_mul hν hτ hτ0 (by norm_num)
  have hcross := hn.cross ht 1 (by decide) (by
    rw [hd, hu]
    norm_num
    nlinarith)
  rw [hd, hu] at hcross
  have hunit : unit (Space.cross d u) = Space.cross d u := by
    have := unit_smul one_pos hright
    rwa [one_smul] at this
  have hnormalize := hcross.normalize (by rw [hright]; norm_num; linarith)
    (by rw [hright]; norm_num) (by rw [hright]; norm_num)
  rw [hunit, hright] at hnormalize
  refine hnormalize.mono ?_
  norm_num
  linarith

/-- The first vector of the frame of a ring. -/
lemma around_perpendicular (h : Around η d v) (hd : ‖d‖ = 1) (hη : η ≤ 1 / 64)
    (hchoice : 1 / 16 ≤ |(|d 2| - 9 / 10)|) :
    Around (10 * η + 1 / 2 ^ 13) (across d) v.perpendicular := by
  have hη0 : 0 ≤ η := (norm_nonneg _).trans h.2
  have hn := h.normalize_again hd hη
  have hν : 1 / 2 ^ 17 + 2 * η ≤ 1 / 16 := by
    norm_num
    linarith
  obtain ⟨hfinite, hval⟩ := finite_abs hn.1.z
  have hheight : |val v.normalize.z - d 2| ≤ 1 / 2 ^ 17 + 2 * η :=
    (abs_apply_le (v.normalize.real - d) 2).trans hn.2
  have hsize : |(|val v.normalize.z| - |d 2|)| ≤ 1 / 2 ^ 17 + 2 * η :=
    (abs_abs_sub_abs_le _ _).trans hheight
  have hconst := abs_le.mp val_nine_tenths.2
  obtain ⟨hsize₁, hsize₂⟩ := abs_le.mp hsize
  have hiff := lt_iff_val_lt hfinite val_nine_tenths.1
  rw [hval] at hiff
  rw [across_eq]
  unfold perpendicular
  dsimp only
  -- The height is on the same side of nine tenths as that of the exact direction.
  rcases lt_or_ge |d 2| (9 / 10) with hlow | hhigh
  · rw [abs_of_neg (by linarith)] at hchoice
    have hcase : v.normalize.z.abs < 0.9 := hiff.mpr (by linarith [hconst.1])
    rw [if_pos hcase, if_pos hlow]
    refine (hn.normalize_cross_axis hd hν around_unitZ norm_axisZ
      (le_norm_cross_axisZ hd (hlow.le.trans (by norm_num)))).mono ?_
    norm_num
    linarith
  · rw [abs_of_nonneg (by linarith)] at hchoice
    have hcase : ¬ v.normalize.z.abs < 0.9 := fun hlt => by linarith [hiff.mp hlt, hconst.2]
    rw [if_neg hcase, if_neg (not_lt.mpr hhigh)]
    refine (hn.normalize_cross_axis hd hν around_unitX norm_axisX
      (le_norm_cross_axisX hd (le_trans (by norm_num) hhigh))).mono ?_
    norm_num
    linarith

/-- The second vector of the frame of a ring. -/
lemma around_bitangent (h : Around η d v) (hd : ‖d‖ = 1) (hη : η ≤ 1 / 64)
    (hchoice : 1 / 16 ≤ |(|d 2| - 9 / 10)|) :
    Around (25 * η + 1 / 2 ^ 11) (Space.cross d (across d))
      (v.normalize.cross v.perpendicular).normalize := by
  have hη0 : 0 ≤ η := (norm_nonneg _).trans h.2
  have hn := h.normalize_again hd hη
  have ht := around_perpendicular h hd hη hchoice
  refine (hn.normalize_cross ht hd (norm_across hd) (norm_cross_across hd) ?_ ?_).mono ?_
  · norm_num
    linarith
  · norm_num
    linarith
  · norm_num
    nlinarith

end Vec3

namespace Mesh

open Space

lemma val_ofCount {n : ℕ} (hn : n ≤ 2 ^ 24) : IsFinite (ofCount n) ∧ val (ofCount n) = n := by
  have hword : n.toUInt64.toNat = n := Nat.mod_eq_of_lt (by omega)
  have h := val_toFloat32 (n := n.toUInt64) (by rwa [hword])
  rwa [hword] at h

lemma approx_part {i n : ℕ} (hi : i < n) (hn : n ≤ 2 ^ 24) :
    Approx (1 / 2 ^ 24) 1 ((i : ℝ) / n) (part i n) ∧ 0 ≤ val (part i n) := by
  obtain ⟨hfinite, hval⟩ := val_ofCount (n := i) (by omega)
  obtain ⟨hfinite', hval'⟩ := val_ofCount hn
  have hpos : (0 : ℝ) < n := by exact_mod_cast (Nat.zero_le i).trans_lt hi
  have hnonneg : 0 ≤ (i : ℝ) / n := by positivity
  have hsize : |(i : ℝ) / n| ≤ 1 := by
    rw [abs_of_nonneg hnonneg, div_le_one hpos]
    exact_mod_cast hi.le
  have hdiv := finite_div hfinite hfinite' (by rw [hval']; exact hpos.ne')
  rw [hval, hval'] at hdiv
  constructor
  · exact (approx_of_rounded (n := 0) (ε := 0) (by decide) hsize (by simp) hdiv
      (by norm_num)).mono (by norm_num) le_rfl
  · obtain ⟨-, heq⟩ := hdiv (abs_rounded_lt_of_abs_le (n := 0) (by decide) (by simpa using hsize))
    rw [part, heq]
    exact rounded_nonneg _ hnonneg

lemma approx_tau : Approx (1 / 2 ^ 22) (63 / 10) (2 * Real.pi) tau := by
  have hlow := Real.pi_gt_d20
  have hhigh := Real.pi_lt_d20
  have hlt : (0x40C90FDB : UInt32).toNat < 0x7F800000 := by decide
  have hmagnitude : magnitude .binary32 (0x40C90FDB : UInt32).toNat = 13176795 / 2 ^ 21 := by
    have hnat : (0x40C90FDB : UInt32).toNat = 0x40C90FDB := rfl
    rw [hnat]
    norm_num [magnitude_binary32]
  refine ⟨(below_ofBits (k := 3) (by norm_num) (by decide)).1, ?_, ?_⟩
  · rw [abs_of_pos (by positivity)]
    linarith
  · rw [tau, val_ofBits_of_lt hlt, hmagnitude, abs_le]
    constructor <;> norm_num <;> linarith

/-- A part of a turn, as an angle. -/
lemma approx_angle {i n : ℕ} (hi : i < n) (hn : n ≤ 2 ^ 24) :
    Approx (1 / 2 ^ 20) (63 / 10) (2 * Real.pi * (i / n)) (part i n * tau) ∧
      0 ≤ val (part i n * tau) := by
  obtain ⟨hpart, hnonneg⟩ := approx_part hi hn
  have htau0 : 0 ≤ val tau := by
    have hbound := (abs_le.mp approx_tau.2.2).1
    have hpi := Real.pi_gt_three
    norm_num at hbound
    linarith
  have hangle := hpart.mul approx_tau 2 (by decide) (by norm_num)
  rw [one_mul, mul_comm ((i : ℝ) / n)] at hangle
  refine ⟨hangle.mono (by norm_num) (by norm_num), ?_⟩
  have hsize : |val (part i n) * val tau| ≤ 2 ^ 3 := by
    rw [abs_mul]
    have h₁ := hpart.abs_val_le
    have h₂ := approx_tau.abs_val_le
    calc |val (part i n)| * |val tau| ≤ (1 + 1 / 2 ^ 24) * (63 / 10 + 1 / 2 ^ 22) := by gcongr
      _ ≤ 2 ^ 3 := by norm_num
  obtain ⟨-, heq⟩ := finite_mul hpart.1 approx_tau.1 (abs_rounded_lt_of_abs_le (by decide) hsize)
  rw [heq]
  exact rounded_nonneg _ (mul_nonneg hnonneg htau0)

/-- The sine and the cosine of a part of a turn. -/
lemma approx_sin_cos_of_part {i n : ℕ} (hi : i < n) (hn : n ≤ 2 ^ 24) :
    Approx (1 / 2 ^ 18) 1 (Real.sin (2 * Real.pi * (i / n))) (sin (part i n * tau)) ∧
      Approx (1 / 2 ^ 18) 1 (Real.cos (2 * Real.pi * (i / n))) (cos (part i n * tau)) := by
  obtain ⟨hangle, hnonneg⟩ := approx_angle hi hn
  have hle : val (part i n * tau) ≤ 8 := by
    have := (le_abs_self _).trans hangle.abs_val_le
    norm_num at this
    linarith
  obtain ⟨hsin, hcos⟩ := approx_sin_cos hangle.1 hnonneg hle
  have hmove₁ := (Real.abs_sin_sub_sin_le _ _).trans hangle.2.2
  have hmove₂ := (Real.abs_cos_sub_cos_le _ _).trans hangle.2.2
  exact ⟨(hsin.shift hmove₁ (Real.abs_sin_le_one _)).mono (by norm_num) le_rfl,
    (hcos.shift hmove₂ (Real.abs_cos_le_one _)).mono (by norm_num) le_rfl⟩

section Ring

variable {d : Space} {direction center : Vec3} {radius : Float32} {η : ℝ}

/-- A unit vector by a number up to one and a radius with the leading power `2^k`. -/
lemma around_scale_radius {v : Vec3} {u : Space} {ε s : ℝ} {z : Float32} {k : ℤ}
    (hv : v.Around ε u) (hu : ‖u‖ = 1) (hε : ε ≤ 1 / 2) (hz : Approx (1 / 2 ^ 18) 1 s z)
    (hradius : IsFinite radius) (hk : Resolved Float32 (k + 1)) (hle : 2 ^ k ≤ val radius)
    (hlt : val radius < 2 ^ k * 2) :
    (v.scale (z * radius)).Around (val radius * (ε + 1 / 2 ^ 16)) ((s * val radius) • u) ∧
      ‖(s * val radius) • u‖ ≤ val radius := by
  have hpow : ∀ m : ℤ, (2 : ℝ) ^ (k + m) = 2 ^ k * 2 ^ m := zpow_add₀ (by norm_num) k
  have hpos : 0 < val radius := lt_of_lt_of_le (by positivity) hle
  have hε0 : 0 ≤ ε := (norm_nonneg _).trans hv.2
  have hexact : Approx 0 (val radius) (val radius) radius := hradius.approx (abs_of_pos hpos).le
  set ρ := val radius
  have hscaled : Approx (ρ / 2 ^ 17) ρ (s * ρ) (z * radius) := by
    refine (hz.mul hexact (k + 1) hk ?_).mono ?_ (one_mul ρ).le
    · rw [add_assoc k, hpow]
      norm_num
      linarith
    · rw [hpow, roundoff_single]
      norm_num
      linarith
  constructor
  · refine (hv.scale hscaled (k + 1) hk ?_).mono ?_
    · rw [hu, add_assoc k, hpow]
      norm_num
      nlinarith
    · rw [hu, hpow]
      norm_num
      nlinarith
  · rw [norm_smul, hu, mul_one, Real.norm_eq_abs, abs_mul, abs_of_pos hpos]
    exact mul_le_of_le_one_left hpos.le hz.2.1

/-- Two unit vectors that are turned by a sine and a cosine, at the distance of a radius. -/
lemma around_turned {t b : Vec3} {u w : Space} {α β c s : ℝ} {cosine sine : Float32}
    (ht : t.Around α u) (hb : b.Around β w) (hu : ‖u‖ = 1) (hw : ‖w‖ = 1) (hα : α ≤ 1 / 2)
    (hβ : β ≤ 1 / 2) (hc : Approx (1 / 2 ^ 18) 1 c cosine) (hs : Approx (1 / 2 ^ 18) 1 s sine)
    (hradius : IsFinite radius) (hlow : 2 ^ (-100 : ℤ) ≤ val radius)
    (hhigh : val radius < 2 ^ (40 : ℤ)) :
    Vec3.Around (val radius * (α + β + 1 / 2 ^ 14)) ((c * val radius) • u + (s * val radius) • w)
      (t.scale (cosine * radius) + b.scale (sine * radius)) := by
  obtain ⟨k, hk₁, hk₂, hle, hlt⟩ := exists_leading_power hlow hhigh
  have hresolved : ∀ m : ℤ, 0 ≤ m → m ≤ 4 → Resolved Float32 (k + m) := fun m h₁ h₂ => by
    show -149 ≤ k + m + 1 - 24 ∧ k + m + 1 < 128
    omega
  have hone := hresolved 1 (by norm_num) (by norm_num)
  have hpow : ∀ m : ℤ, (2 : ℝ) ^ (k + m) = 2 ^ k * 2 ^ m := zpow_add₀ (by norm_num) k
  obtain ⟨h₁, hn₁⟩ := around_scale_radius ht hu hα hc hradius hone hle hlt
  obtain ⟨h₂, hn₂⟩ := around_scale_radius hb hw hβ hs hradius hone hle hlt
  refine (h₁.add h₂ (k + 2) (hresolved 2 (by norm_num) (by norm_num)) ?_).mono ?_
  · rw [add_assoc k, hpow]
    norm_num
    nlinarith
  · rw [hpow]
    norm_num
    nlinarith

/-- The way from the center of a ring to a vertex, relative to the radius. -/
lemma around_offset (h : direction.Around η d) (hd : ‖d‖ = 1) (hη : η ≤ 1 / 64)
    (hchoice : 1 / 16 ≤ |(|d 2| - 9 / 10)|) (hradius : IsFinite radius)
    (hlow : 2 ^ (-40 : ℤ) ≤ val radius) (hhigh : val radius < 2 ^ (40 : ℤ)) {i n : ℕ} (hi : i < n)
    (hn : n ≤ 2 ^ 24) :
    Vec3.Around (val radius * (35 * η + 1 / 2 ^ 10))
      (val radius • spoke d (2 * Real.pi * (i / n)))
      (direction.perpendicular.scale (cos (part i n * tau) * radius) +
        (direction.normalize.cross direction.perpendicular).normalize.scale
          (sin (part i n * tau) * radius)) := by
  have hpos : 0 < val radius := lt_of_lt_of_le (by positivity) hlow
  obtain ⟨hsin, hcos⟩ := approx_sin_cos_of_part hi hn
  have hturned := around_turned (Vec3.around_perpendicular h hd hη hchoice)
    (Vec3.around_bitangent h hd hη hchoice) (norm_across hd) (norm_cross_across hd)
    (by norm_num; linarith) (by norm_num; linarith) hcos hsin hradius
    (le_trans (by norm_num) hlow) hhigh
  have hreal : val radius • spoke d (2 * Real.pi * (i / n)) =
      (Real.cos (2 * Real.pi * (i / n)) * val radius) • across d +
        (Real.sin (2 * Real.pi * (i / n)) * val radius) • Space.cross d (across d) := by
    rw [spoke, smul_add, smul_smul, smul_smul, mul_comm (val radius), mul_comm (val radius)]
  rw [hreal]
  refine hturned.mono (mul_le_mul_of_nonneg_left ?_ hpos.le)
  norm_num
  linarith

/-- **Rings.**  A vertex of a ring is on the circle about the center, and its normal points away
from the center. -/
theorem around_ring (h : direction.Around η d) (hd : ‖d‖ = 1) (hη : η ≤ 1 / 128)
    (hchoice : 1 / 16 ≤ |(|d 2| - 9 / 10)|) (hradius : IsFinite radius)
    (hlow : 2 ^ (-40 : ℤ) ≤ val radius) (hhigh : val radius < 2 ^ (40 : ℤ)) {i n : ℕ} (hi : i < n)
    (hn : n ≤ 2 ^ 24) {ε : ℝ} {c : Space} (hc : center.Around ε c) {m : ℤ}
    (hm : Resolved Float32 m) (hsize : ‖c‖ + 2 * val radius + ε < 2 ^ (m + 1)) {v : Float32}
    {a : Vertex} (ha : (ring center direction radius n v)[i]? = some a) :
    a.position.Around (ε + val radius * (35 * η + 1 / 2 ^ 10) + 2 ^ m / 2 ^ 23)
        (c + val radius • spoke d (2 * Real.pi * (i / n))) ∧
      a.normal.Around (70 * η + 1 / 2 ^ 8) (spoke d (2 * Real.pi * (i / n))) := by
  have hη0 : 0 ≤ η := (norm_nonneg _).trans h.2
  have hpos : 0 < val radius := lt_of_lt_of_le (by positivity) hlow
  have hoffset := around_offset h hd (by linarith) hchoice hradius hlow hhigh hi hn
  have hspoke := norm_spoke hd (2 * Real.pi * (i / n))
  have hnorm : ‖val radius • spoke d (2 * Real.pi * (i / n))‖ = val radius := by
    rw [norm_smul, hspoke, mul_one, Real.norm_of_nonneg hpos.le]
  rw [ring, List.getElem?_map, List.getElem?_range hi, Option.map_some, Option.some_inj] at ha
  subst ha
  constructor
  · refine (hc.add hoffset m hm ?_).mono le_rfl
    rw [hnorm]
    nlinarith
  · have hnormal := hoffset.normalize (by rw [hnorm]; nlinarith)
      (by rw [hnorm]; exact le_trans (by norm_num) hlow)
      (by rw [hnorm]; exact hhigh.le.trans (by norm_num))
    rw [unit_smul hpos hspoke, hnorm] at hnormal
    refine hnormal.mono ?_
    have hcancel : 2 * (val radius * (35 * η + 1 / 2 ^ 10)) / val radius =
        2 * (35 * η + 1 / 2 ^ 10) := by
      field_simp
    rw [hcancel]
    norm_num
    linarith

end Ring

end Mesh

end Arbor
