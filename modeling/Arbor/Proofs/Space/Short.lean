import Arbor.Proofs.Space.Direction

/-!
# Short vectors

The length of a vector is the root of a sum of squares, and the squares of a short vector fall out
of the range of the format.  Coordinates up to `2^-76` have squares that round to zero, so there is
no length and the vector is left alone when it is normalized (`normalize_of_small`).  From `2^-69`
on the squares are coarse, but enough of them is left for a length of one up to a thousandth
(`norm_normalize_sub_one_le`).

In between nothing is known of the direction, but a vector with a positive length is made longer
than `2^-60` (`le_norm_normalize`).  So what was normalized once is normalized well a second time
(`exists_direction`).
-/

namespace Arbor

open Number

namespace Number

variable {x y : Float32} {k : ℤ} {r : ℝ}

lemma abs_val_mul_le (hx : IsFinite x) (hy : IsFinite y) (hlow : -149 ≤ k) (hhigh : k < 128)
    (h : |val x * val y| ≤ 2 ^ k) : IsFinite (x * y) ∧ |val (x * y)| ≤ 2 ^ k := by
  have hheld := held_zpow hlow hhigh
  obtain ⟨h₁, h₂⟩ := abs_le.mp h
  obtain ⟨hfinite, hbounds⟩ := within_mul hheld.neg hheld hx hy h₁ h₂
  exact ⟨hfinite, abs_le.mpr hbounds⟩

lemma abs_val_add_le (hx : IsFinite x) (hy : IsFinite y) (hlow : -149 ≤ k) (hhigh : k < 128)
    (h : |val x + val y| ≤ 2 ^ k) : IsFinite (x + y) ∧ |val (x + y)| ≤ 2 ^ k := by
  have hheld := held_zpow hlow hhigh
  obtain ⟨h₁, h₂⟩ := abs_le.mp h
  obtain ⟨hfinite, hbounds⟩ := within_add hheld.neg hheld hx hy h₁ h₂
  exact ⟨hfinite, abs_le.mpr hbounds⟩

/-- Nothing but zero is below the smallest positive number. -/
lemma val_eq_zero_of_lt (hx : IsFinite x) (h : |val x| < 2 ^ (-149 : ℤ)) : val x = 0 := by
  obtain ⟨hlow, hhigh⟩ := abs_lt.mp h
  obtain ⟨hneg, hval⟩ := finite_neg hx
  rcases lt_trichotomy (val x) 0 with hx0 | hx0 | hx0
  · have := zpow_le_val_of_pos hneg (by linarith)
    linarith
  · exact hx0
  · linarith [zpow_le_val_of_pos hx hx0]

/-- The product of two small numbers is zero. -/
lemma within_zero_mul_of_small (hx : IsFinite x) (hy : IsFinite y)
    (h : |val x * val y| ≤ 2 ^ (-152 : ℤ)) : Within 0 0 (x * y) := by
  have hn : Resolved Float32 (-126) := by decide
  have hsize : |val x * val y| < 2 ^ ((-126 : ℤ) + 1) := lt_of_le_of_lt h (by norm_num)
  obtain ⟨hfinite, hval⟩ := finite_mul hx hy (abs_rounded_lt_of_abs_lt hn hsize)
  have hround := abs_rounded_sub_le_roundoff hn hsize
  rw [roundoff_single, ← hval] at hround
  have hmove := abs_sub_abs_le_abs_sub (val (x * y)) (val x * val y)
  have hzero := val_eq_zero_of_lt hfinite (by
    generalize |val x * val y| = p at h hmove
    norm_num at h hround ⊢
    linarith)
  exact ⟨hfinite, hzero.ge, hzero.le⟩

end Number

namespace Vec3

open Space

variable {v : Vec3} {k : ℤ}

lemma norm_real_le {b : ℝ} (hx : |val v.x| ≤ b) (hy : |val v.y| ≤ b) (hz : |val v.z| ≤ b) :
    ‖v.real‖ ≤ 2 * b := by
  refine norm_le_two_mul fun i => ?_
  fin_cases i
  · exact hx
  · exact hy
  · exact hz

lemma Boxed.norm_le {n : ℕ} (h : Boxed n v) : ‖v.real‖ ≤ 2 * 2 ^ n :=
  norm_real_le h.x.2 h.y.2 h.z.2

/-! ## Lost lengths -/

lemma length_of_small (hv : v.Finite) (h : ‖v.real‖ ≤ 2 ^ (-76 : ℤ)) : Within 0 0 v.length := by
  have hsquare : ∀ {x : Float32}, IsFinite x → |val x| ≤ ‖v.real‖ → Within 0 0 (x * x) := by
    intro x hx hle
    apply within_zero_mul_of_small hx hx
    rw [abs_mul]
    calc |val x| * |val x| ≤ 2 ^ (-76 : ℤ) * 2 ^ (-76 : ℤ) :=
          mul_le_mul (hle.trans h) (hle.trans h) (abs_nonneg _) (by positivity)
      _ = 2 ^ (-152 : ℤ) := by norm_num
  exact within_zero_sqrt (within_zero_add (within_zero_add
    (hsquare hv.x (abs_apply_le v.real 0)) (hsquare hv.y (abs_apply_le v.real 1)))
    (hsquare hv.z (abs_apply_le v.real 2)))

lemma normalize_of_within_zero (h : Within 0 0 v.length) : v.normalize = v := by
  have hpos : ¬ 0 < v.length := by
    rw [lt_iff_val_lt below_zero.1 h.1, val_zero]
    exact not_lt.mpr h.2.2
  rw [normalize, if_neg hpos]

/-- The squares of a small vector are lost, and so it is not normalized. -/
lemma normalize_of_small (hv : v.Finite) (h : ‖v.real‖ ≤ 2 ^ (-76 : ℤ)) : v.normalize = v :=
  normalize_of_within_zero (length_of_small hv h)

/-! ## Short vectors with a length -/

lemma length_le_of_short (hv : v.Finite) (h : ‖v.real‖ ≤ 2 ^ (-60 : ℤ)) :
    Within 0 (2 ^ (-59 : ℤ)) v.length := by
  have hsquare : ∀ {x : Float32}, IsFinite x → |val x| ≤ ‖v.real‖ →
      Within 0 (2 ^ (-120 : ℤ)) (x * x) := by
    intro x hx hle
    apply within_mul held_zero (held_zpow (by norm_num) (by norm_num)) hx hx (mul_self_nonneg _)
    rw [← abs_mul_abs_self]
    calc |val x| * |val x| ≤ 2 ^ (-60 : ℤ) * 2 ^ (-60 : ℤ) :=
          mul_le_mul (hle.trans h) (hle.trans h) (abs_nonneg _) (by positivity)
      _ = 2 ^ (-120 : ℤ) := by norm_num
  have hx := hsquare hv.x (abs_apply_le v.real 0)
  have hy := hsquare hv.y (abs_apply_le v.real 1)
  have hz := hsquare hv.z (abs_apply_le v.real 2)
  have hxy : Within 0 (2 ^ (-119 : ℤ)) (v.x * v.x + v.y * v.y) := by
    apply within_add held_zero (held_zpow (by norm_num) (by norm_num)) hx.1 hy.1
      (add_nonneg hx.2.1 hy.2.1)
    refine (add_le_add hx.2.2 hy.2.2).trans ?_
    norm_num
  have hsquared : Within 0 (2 ^ (-118 : ℤ)) v.lengthSquared := by
    apply within_add held_zero (held_zpow (by norm_num) (by norm_num)) hxy.1 hz.1
      (add_nonneg hxy.2.1 hz.2.1)
    refine (add_le_add hxy.2.2 hz.2.2).trans ?_
    norm_num
  apply within_sqrt held_zero (held_zpow (by norm_num) (by norm_num)) hsquared.1 hsquared.2.1
    (Real.sqrt_nonneg _)
  rw [Real.sqrt_le_iff]
  refine ⟨by positivity, hsquared.2.2.trans ?_⟩
  norm_num

/-- A vector that has a length has a coordinate above the size whose square is lost. -/
lemma exists_coordinate_of_length_pos (hv : v.Finite) (hpos : 0 < val v.length) :
    ∃ i, 2 ^ (-77 : ℤ) < |v.real i| := by
  by_contra! hsmall
  have hnorm := norm_le_two_mul hsmall
  have hzero := length_of_small hv (hnorm.trans (by norm_num))
  rw [hzero.val_eq_zero] at hpos
  exact lt_irrefl _ hpos

/-- The length of a short vector is not so small that its reciprocal is out of range. -/
lemma within_reciprocal_of_short (hv : v.Finite) (h : ‖v.real‖ ≤ 2 ^ (-60 : ℤ))
    (hpos : 0 < v.length) :
    0 < val v.length ∧ Within (2 ^ (59 : ℤ)) (2 ^ (75 : ℤ)) (1 / v.length) := by
  obtain ⟨hfinite, -, hhigh⟩ := length_le_of_short hv h
  have hlow : 2 ^ (-75 : ℤ) ≤ val v.length :=
    (atLeast_length_of_pos hv hpos).le_val hfinite ((le_iff_val_le hfinite hfinite).mpr le_rfl)
  have hpos' : 0 < val v.length := lt_of_lt_of_le (by positivity) hlow
  refine ⟨hpos', within_div (held_zpow (by norm_num) (by norm_num))
    (held_zpow (by norm_num) (by norm_num)) below_one.1 hfinite hpos'.ne' ?_ ?_⟩
  · rw [val_one, le_div_iff₀ hpos']
    norm_num at hhigh ⊢
    linarith
  · rw [val_one, div_le_iff₀ hpos']
    norm_num at hlow ⊢
    linarith

/-- A coordinate above that size stays away from zero when it is scaled by the reciprocal. -/
lemma le_abs_val_mul_reciprocal {x y : Float32} (hx : IsFinite x) (hlow : 2 ^ (-77 : ℤ) < |val x|)
    (hhigh : |val x| ≤ 2 ^ (-60 : ℤ)) (hy : Within (2 ^ (59 : ℤ)) (2 ^ (75 : ℤ)) y) :
    2 ^ (-18 : ℤ) ≤ |val (x * y)| := by
  have hy0 : 0 ≤ val y := le_trans (by positivity) hy.2.1
  have hproduct : |val x * val y| = |val x| * val y := by rw [abs_mul, abs_of_nonneg hy0]
  have hbelow : 2 ^ (-18 : ℤ) ≤ |val x * val y| := by
    rw [hproduct]
    calc (2 : ℝ) ^ (-18 : ℤ) = 2 ^ (-77 : ℤ) * 2 ^ (59 : ℤ) := by norm_num
      _ ≤ |val x| * val y := mul_le_mul hlow.le hy.2.1 (by positivity) (abs_nonneg _)
  have habove : |val x * val y| ≤ 2 ^ 15 := by
    rw [hproduct]
    calc |val x| * val y ≤ 2 ^ (-60 : ℤ) * 2 ^ (75 : ℤ) :=
          mul_le_mul hhigh hy.2.2 hy0 (by positivity)
      _ = 2 ^ 15 := by norm_num
  obtain ⟨-, hval⟩ := finite_mul hx hy.1 (abs_rounded_lt_of_abs_le (by decide) habove)
  rw [hval]
  exact (held_zpow (by norm_num) (by norm_num)).1.le_abs_rounded hbelow

/-- A vector that has a length at all is not short when it is normalized. -/
lemma le_norm_normalize (hv : v.Finite) (hhigh : ‖v.real‖ < 2 ^ (60 : ℤ)) (hpos : 0 < v.length) :
    2 ^ (-60 : ℤ) ≤ ‖v.normalize.real‖ := by
  rcases le_or_gt (2 ^ (-60 : ℤ)) ‖v.real‖ with hlow | hshort
  · have hv0 : v.real ≠ 0 := norm_pos_iff.mp (lt_of_lt_of_le (by positivity) hlow)
    have hunit := (around_normalize_unit hv hlow hhigh).le_norm
    rw [norm_unit hv0] at hunit
    refine le_trans ?_ hunit
    norm_num
  · obtain ⟨hlength, hreciprocal⟩ := within_reciprocal_of_short hv hshort.le hpos
    obtain ⟨i, hi⟩ := exists_coordinate_of_length_pos hv hlength
    have hscaled : ∀ {x : Float32}, IsFinite x → |val x| ≤ ‖v.real‖ → 2 ^ (-77 : ℤ) < |val x| →
        2 ^ (-18 : ℤ) ≤ |val (x * (1 / v.length))| := fun hx hle hlt =>
      le_abs_val_mul_reciprocal hx hlt (hle.trans hshort.le) hreciprocal
    have hcoordinate : 2 ^ (-18 : ℤ) ≤ |v.normalize.real i| := by
      rw [normalize, if_pos hpos]
      fin_cases i
      · exact hscaled hv.x (abs_apply_le v.real 0) hi
      · exact hscaled hv.y (abs_apply_le v.real 1) hi
      · exact hscaled hv.z (abs_apply_le v.real 2) hi
    refine le_trans ?_ (hcoordinate.trans (abs_apply_le _ i))
    norm_num

/-- What was normalized once is normalized well a second time. -/
lemma exists_direction (hv : v.Finite) (hhigh : ‖v.real‖ < 2 ^ (60 : ℤ)) (hpos : 0 < v.length) :
    ∃ d : Space, ‖d‖ = 1 ∧ v.normalize.normalize.Around (1 / 2 ^ 17) d := by
  have hlow := le_norm_normalize hv hhigh hpos
  have hne : v.normalize.real ≠ 0 := norm_pos_iff.mp (lt_of_lt_of_le (by positivity) hlow)
  have hboxed := boxed_normalize hv
  exact ⟨_, norm_unit hne, around_normalize_unit hboxed.finite hlow
    (hboxed.norm_le.trans_lt (by norm_num))⟩

/-! ## Coarse lengths -/

/-- The length of a short vector, with squares that are resolved to twelve bits. -/
lemma approx_length_coarse (hv : v.Finite) (hk₁ : -69 ≤ k) (hk₂ : k ≤ 0)
    (hlow : (2 : ℝ) ^ k ≤ ‖v.real‖) (hhigh : ‖v.real‖ < 2 ^ k * 2) :
    Approx (62 / 100000 * 2 ^ k) ‖v.real‖ ‖v.real‖ v.length := by
  have hn : Resolved Float32 (2 * k + 12) := by
    show -149 ≤ 2 * k + 12 + 1 - 24 ∧ 2 * k + 12 + 1 < 128
    omega
  have hpow := zpow_two_mul_add k
  have hP : (0 : ℝ) < 2 ^ k := by positivity
  have hP2 : (0 : ℝ) < (2 ^ k) ^ 2 := by positivity
  have habove : ‖v.real‖ ^ 2 < 4 * (2 ^ k) ^ 2 := by nlinarith [norm_nonneg v.real]
  have hsquared := approx_lengthSquared hv hn hn (by
    rw [add_assoc, hpow]
    norm_num
    linarith) (by
    rw [add_assoc, hpow, hpow]
    norm_num
    linarith)
  have hlength := approx_length_of_squared (e := 5 / 2 ^ 12) (by omega) (by omega) hlow hhigh
    (by norm_num) (hsquared.mono (le_of_eq (by rw [hpow]; norm_num; ring)) le_rfl)
  exact hlength.mono (mul_le_mul_of_nonneg_right (by norm_num) hP.le) le_rfl

/-- The reciprocal of a length that is off by a small part of itself. -/
lemma abs_reciprocal_mul_sub_one_le {x : Float32} {L : ℝ} (hx : IsFinite x) (hk₁ : -69 ≤ k)
    (hk₂ : k ≤ 0) (hlow : (2 : ℝ) ^ k ≤ L) (hhigh : L < 2 ^ k * 2)
    (h : |val x - L| ≤ 62 / 100000 * 2 ^ k) :
    0 < val x ∧ IsFinite (1 / x) ∧ 0 ≤ val (1 / x) ∧ |val (1 / x) * L - 1| ≤ 64 / 100000 := by
  have hP : (0 : ℝ) < 2 ^ k := by positivity
  have hinverse : (2 : ℝ) ^ (-k) = 1 / 2 ^ k := by rw [zpow_neg, one_div]
  have hinverse' : (2 : ℝ) ^ (-k + 1) = 2 / 2 ^ k := by
    rw [zpow_add_one₀ (by norm_num), hinverse]
    ring
  have hn : Resolved Float32 (-k) := by
    show -149 ≤ -k + 1 - 24 ∧ -k + 1 < 128
    omega
  set P : ℝ := 2 ^ k
  set s : ℝ := val x with hs
  obtain ⟨hs₁, hs₂⟩ := abs_le.mp h
  have hsP : 999 / 1000 * P ≤ s := by linarith
  have hs0 : 0 < s := lt_of_lt_of_le (by positivity) hsP
  have hsize : |val (1 : Float32) / s| < 2 ^ (-k + 1) := by
    rw [val_one, abs_of_pos (by positivity), hinverse', div_lt_div_iff₀ hs0 hP]
    linarith
  obtain ⟨hfinite, hq⟩ :=
    finite_div below_one.1 hx hs0.ne' (abs_rounded_lt_of_abs_lt hn hsize)
  have hround := abs_rounded_sub_le_roundoff hn hsize
  rw [← hs] at hq
  rw [← hq, val_one, hinverse, roundoff_single] at hround
  have hq0 : 0 ≤ val (1 / x) := by
    rw [hq, val_one]
    exact rounded_nonneg _ (by positivity)
  refine ⟨hs0, hfinite, hq0, ?_⟩
  set q : ℝ := val (1 / x)
  have hquotient : |L / s - 1| ≤ 63 / 100000 := by
    rw [div_sub_one hs0.ne', abs_div, abs_of_pos hs0, div_le_iff₀ hs0, abs_sub_comm]
    linarith
  have hmove : |q * L - L / s| ≤ 1 / 1000000 := by
    have hsplit : q * L - L / s = (q - 1 / s) * L := by ring
    have hL : 0 ≤ L := hP.le.trans hlow
    rw [hsplit, abs_mul, abs_of_nonneg hL]
    calc |q - 1 / s| * L ≤ 1 / P * (1 / 2 ^ 24) * (P * 2) := by gcongr
      _ = 2 / 2 ^ 24 := by field_simp
      _ ≤ 1 / 1000000 := by norm_num
  linarith [abs_sub_le (q * L) (L / s) 1]

/-- A short vector is normalized to a length of one, up to a thousandth. -/
lemma norm_normalize_sub_one_le_of_short (hv : v.Finite) (hlow : 2 ^ (-69 : ℤ) ≤ ‖v.real‖)
    (hhigh : ‖v.real‖ < 1) : |‖v.normalize.real‖ - 1| ≤ 1 / 1000 := by
  obtain ⟨k, hk₁, hk₂, hle, hlt⟩ := exists_leading_power (b := 0) hlow (by simpa using hhigh)
  obtain ⟨hfinite, -, hlength⟩ := approx_length_coarse hv hk₁ hk₂.le hle hlt
  obtain ⟨hs0, hreciprocal, hq0, hproduct⟩ :=
    abs_reciprocal_mul_sub_one_le hfinite hk₁ hk₂.le hle hlt hlength
  have hpos : (0 : Float32) < v.length := by
    rw [lt_iff_val_lt below_zero.1 hfinite, val_zero]
    exact hs0
  set q : ℝ := val (1 / v.length)
  have hexact : Approx 0 q q (1 / v.length) := hreciprocal.approx (abs_of_nonneg hq0).le
  have hscale := hv.around.scale hexact 1 (by decide) (by
    have := (abs_le.mp hproduct).2
    norm_num
    linarith)
  rw [normalize, if_pos hpos]
  have hnorm : ‖q • v.real‖ = q * ‖v.real‖ := by rw [norm_smul, Real.norm_of_nonneg hq0]
  have hclose := abs_norm_sub_norm_le (v.scale (1 / v.length)).real (q • v.real)
  rw [hnorm] at hclose
  have hmove := abs_sub_le ‖(v.scale (1 / v.length)).real‖ (q * ‖v.real‖) 1
  have herror := hscale.2
  norm_num at herror
  linarith

/-- **Unit vectors.**  Unless its squares are lost or out of range, a vector is normalized to a
length of one, up to a thousandth. -/
theorem norm_normalize_sub_one_le (hv : v.Finite) (hlow : 2 ^ (-69 : ℤ) ≤ ‖v.real‖)
    (hhigh : ‖v.real‖ < 2 ^ (60 : ℤ)) : |‖v.normalize.real‖ - 1| ≤ 1 / 1000 := by
  rcases lt_or_ge ‖v.real‖ 1 with hshort | hlong
  · exact norm_normalize_sub_one_le_of_short hv hlow hshort
  · have hv0 : v.real ≠ 0 := norm_pos_iff.mp (one_pos.trans_le hlong)
    have hunit := around_normalize_unit hv (le_trans (by norm_num) hlong) hhigh
    have hclose := (abs_norm_sub_norm_le v.normalize.real (unit v.real)).trans hunit.2
    rw [norm_unit hv0] at hclose
    exact hclose.trans (by norm_num)

end Vec3

end Arbor
