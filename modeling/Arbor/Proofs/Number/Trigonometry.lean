import Arbor.Proofs.Number.Accuracy
import Arbor.Proofs.Number.Circular
import Mathlib.Analysis.Complex.Trigonometric
import Mathlib.Analysis.Real.Pi.Bounds

/-!
# Sine and cosine are accurate

On the angles of one turn both functions are within `2^-19` of the sine and the cosine of analysis
(`approx_sin_cos`).  The polynomials are compared with those of Taylor, coefficient by
coefficient; the reduction leaves a rest that is the angle less a whole number of quarter turns.
-/

namespace Arbor.Number

/-! ## Taylor polynomials -/

/-- The terms of the exponential of `x i` up to the eighth. -/
lemma sum_exp_mul_I (x : ℝ) :
    ∑ m ∈ Finset.range 9, (x * Complex.I) ^ m / (m.factorial : ℂ) =
      ((1 - x ^ 2 / 2 + x ^ 4 / 24 - x ^ 6 / 720 + x ^ 8 / 40320 : ℝ) : ℂ) +
        ((x - x ^ 3 / 6 + x ^ 5 / 120 - x ^ 7 / 5040 : ℝ) : ℂ) * Complex.I := by
  have hI := Complex.I_sq
  simp only [Finset.sum_range_succ, Finset.sum_range_zero, Nat.factorial]
  push_cast
  linear_combination (x ^ 2 / 2 + x ^ 3 * Complex.I / 6 + x ^ 4 * (Complex.I ^ 2 - 1) / 24 +
    x ^ 5 * Complex.I * (Complex.I ^ 2 - 1) / 120 +
    x ^ 6 * (Complex.I ^ 4 - Complex.I ^ 2 + 1) / 720 +
    x ^ 7 * Complex.I * (Complex.I ^ 4 - Complex.I ^ 2 + 1) / 5040 +
    x ^ 8 * (Complex.I ^ 6 - Complex.I ^ 4 + Complex.I ^ 2 - 1) / 40320) * hI

lemma norm_exp_sub_le {x : ℝ} (hx : |x| ≤ 4 / 5) :
    ‖Complex.exp (x * Complex.I) -
      (((1 - x ^ 2 / 2 + x ^ 4 / 24 - x ^ 6 / 720 + x ^ 8 / 40320 : ℝ) : ℂ) +
        ((x - x ^ 3 / 6 + x ^ 5 / 120 - x ^ 7 / 5040 : ℝ) : ℂ) * Complex.I)‖ ≤ 1 / 2 ^ 21 := by
  have hnorm : ‖(x : ℂ) * Complex.I‖ = |x| := by simp
  have hbound := Complex.exp_bound (x := x * Complex.I) (by rw [hnorm]; linarith)
    (n := 9) (by norm_num)
  rw [sum_exp_mul_I, hnorm] at hbound
  refine hbound.trans ?_
  have hpow : |x| ^ 9 ≤ (4 / 5) ^ 9 := by gcongr
  norm_num [Nat.factorial] at hpow ⊢
  linarith

lemma abs_sin_sub_le {x : ℝ} (hx : |x| ≤ 4 / 5) :
    |Real.sin x - (x - x ^ 3 / 6 + x ^ 5 / 120 - x ^ 7 / 5040)| ≤ 1 / 2 ^ 21 := by
  refine le_trans ?_ ((Complex.abs_im_le_norm _).trans (norm_exp_sub_le hx))
  rw [Complex.sub_im, Complex.exp_ofReal_mul_I_im, Complex.add_im, Complex.ofReal_im, zero_add,
    Complex.im_ofReal_mul, Complex.I_im, mul_one]

lemma abs_cos_sub_le {x : ℝ} (hx : |x| ≤ 4 / 5) :
    |Real.cos x - (1 - x ^ 2 / 2 + x ^ 4 / 24 - x ^ 6 / 720 + x ^ 8 / 40320)| ≤ 1 / 2 ^ 21 := by
  refine le_trans ?_ ((Complex.abs_re_le_norm _).trans (norm_exp_sub_le hx))
  rw [Complex.sub_re, Complex.exp_ofReal_mul_I_re, Complex.add_re, Complex.ofReal_re,
    Complex.re_ofReal_mul, Complex.I_re, mul_zero, add_zero]

/-! ## The polynomials -/

/-- A positive double constant near a real. -/
lemma approx_double {n : UInt64} {k : ℕ} {ε b r : ℝ} (hn : n.toNat = k)
    (h : k < 0x7FF0000000000000) (hb : |r| ≤ b) (hr : |magnitude .binary64 k - r| ≤ ε) :
    Approx ε b r (Float.ofBits n) := by
  subst hn
  obtain ⟨hfinite, hval⟩ := val_double_ofBits h
  exact ⟨hfinite, hb, by rwa [hval]⟩

/-- A negative double constant near a real. -/
lemma approx_double_neg {n : UInt64} {k : ℕ} {ε b r : ℝ} (hn : n.toNat = 2 ^ 63 + k)
    (h : k < 0x7FF0000000000000) (hb : |r| ≤ b) (hr : |-magnitude .binary64 k - r| ≤ ε) :
    Approx ε b r (Float.ofBits n) := by
  have hmod : n.toNat % 2 ^ 63 = k := by omega
  obtain ⟨hfinite, hval⟩ := val_double_ofBits_of_le (n := n) (by omega) (by omega)
  rw [hmod] at hval
  exact ⟨hfinite, hb, by rwa [hval]⟩

section Rest

variable {x : Float} {r : ℝ}

lemma approx_sineRest (h : Approx (1 / 2 ^ 30) (4 / 5) r x) :
    Approx (15 / 2 ^ 23) 1 (Real.sin r) (sineRest x) := by
  have hc₃ : Approx (1 / 2 ^ 22) (1 / 6) (-1 / 6) (Float.ofBits 0xBFC555545995A603) :=
    approx_double_neg (k := 0x3FC555545995A603) rfl (by norm_num) (by norm_num [abs_le])
      (by norm_num [magnitude_binary64, abs_le])
  have hc₅ : Approx (5 / 2 ^ 22) (1 / 120) (1 / 120) (Float.ofBits 0x3F81107605230BC4) :=
    approx_double (k := 0x3F81107605230BC4) rfl (by norm_num) (by norm_num [abs_le])
      (by norm_num [magnitude_binary64, abs_le])
  have hc₇ : Approx (7 / 2 ^ 21) (1 / 5040) (-1 / 5040) (Float.ofBits 0xBF2994EB3774CF24) :=
    approx_double_neg (k := 0x3F2994EB3774CF24) rfl (by norm_num) (by norm_num [abs_le])
      (by norm_num [magnitude_binary64, abs_le])
  have hsquare : Approx (1 / 2 ^ 29) (16 / 25) (r * r) (x * x) :=
    (h.mul h 0 (by decide) (by norm_num)).mono (by norm_num) (by norm_num)
  have hcube : Approx (1 / 2 ^ 28) (64 / 125) (r * (r * r)) (x * (x * x)) :=
    (h.mul hsquare 0 (by decide) (by norm_num)).mono (by norm_num) (by norm_num)
  have hfifth : Approx (1 / 2 ^ 28) (1024 / 3125) (r * (r * r) * (r * r)) (x * (x * x) * (x * x)) :=
    (hcube.mul hsquare 0 (by decide) (by norm_num)).mono (by norm_num) (by norm_num)
  have hhead := h.add (hcube.mul hc₃ 0 (by decide) (by norm_num)) 0 (by decide) (by norm_num)
  have htail := hc₅.add (hsquare.mul hc₇ 0 (by decide) (by norm_num)) 0 (by decide) (by norm_num)
  have hrest := hfifth.mul htail 0 (by decide) (by norm_num)
  have htaylor := abs_sin_sub_le h.2.1
  rw [abs_sub_comm] at htaylor
  have hpoly : r + r * (r * r) * (-1 / 6) + r * (r * r) * (r * r) * (1 / 120 + r * r * (-1 / 5040)) =
      r - r ^ 3 / 6 + r ^ 5 / 120 - r ^ 7 / 5040 := by ring
  rw [← hpoly] at htaylor
  have hsum := (hhead.add hrest 0 (by decide) (by norm_num)).shift htaylor (Real.abs_sin_le_one r)
  exact hsum.mono (by norm_num) le_rfl

lemma approx_cosineRest (h : Approx (1 / 2 ^ 30) (4 / 5) r x) :
    Approx (15 / 2 ^ 23) 1 (Real.cos r) (cosineRest x) := by
  have hc₀ : Approx 0 1 1 (Float.ofBits 0x3FF0000000000000) :=
    approx_double (k := 0x3FF0000000000000) rfl (by norm_num) (by norm_num)
      (by norm_num [magnitude_binary64])
  have hc₂ : Approx (1 / 2 ^ 28) (1 / 2) (-1 / 2) (Float.ofBits 0xBFDFFFFFFD0C621C) :=
    approx_double_neg (k := 0x3FDFFFFFFD0C621C) rfl (by norm_num) (by norm_num [abs_le])
      (by norm_num [magnitude_binary64, abs_le])
  have hc₄ : Approx (1 / 2 ^ 24) (1 / 24) (1 / 24) (Float.ofBits 0x3FA55553E1068F19) :=
    approx_double (k := 0x3FA55553E1068F19) rfl (by norm_num) (by norm_num [abs_le])
      (by norm_num [magnitude_binary64, abs_le])
  have hc₆ : Approx (1 / 2 ^ 22) (1 / 720) (-1 / 720) (Float.ofBits 0xBF56C087E89A359D) :=
    approx_double_neg (k := 0x3F56C087E89A359D) rfl (by norm_num) (by norm_num [abs_le])
      (by norm_num [magnitude_binary64, abs_le])
  have hc₈ : Approx (1 / 2 ^ 21) (1 / 40320) (1 / 40320) (Float.ofBits 0x3EF99343027BF8C3) :=
    approx_double (k := 0x3EF99343027BF8C3) rfl (by norm_num) (by norm_num [abs_le])
      (by norm_num [magnitude_binary64, abs_le])
  have hsquare : Approx (1 / 2 ^ 29) (16 / 25) (r * r) (x * x) :=
    (h.mul h 0 (by decide) (by norm_num)).mono (by norm_num) (by norm_num)
  have hfourth : Approx (1 / 2 ^ 28) (256 / 625) (r * r * (r * r)) (x * x * (x * x)) :=
    (hsquare.mul hsquare 0 (by decide) (by norm_num)).mono (by norm_num) (by norm_num)
  have hsixth : Approx (1 / 2 ^ 27) (4096 / 15625) (r * r * (r * r) * (r * r))
      (x * x * (x * x) * (x * x)) :=
    (hfourth.mul hsquare 0 (by decide) (by norm_num)).mono (by norm_num) (by norm_num)
  have htail := hc₆.add (hsquare.mul hc₈ 0 (by decide) (by norm_num)) 0 (by decide) (by norm_num)
  have hhead := hc₀.add (hsquare.mul hc₂ 0 (by decide) (by norm_num)) 0 (by decide) (by norm_num)
  have hmiddle := hhead.add (hfourth.mul hc₄ 0 (by decide) (by norm_num)) 0 (by decide)
    (by norm_num)
  have hrest := hsixth.mul htail 0 (by decide) (by norm_num)
  have htaylor := abs_cos_sub_le h.2.1
  rw [abs_sub_comm] at htaylor
  have hpoly : 1 + r * r * (-1 / 2) + r * r * (r * r) * (1 / 24) +
      r * r * (r * r) * (r * r) * (-1 / 720 + r * r * (1 / 40320)) =
      1 - r ^ 2 / 2 + r ^ 4 / 24 - r ^ 6 / 720 + r ^ 8 / 40320 := by ring
  rw [← hpoly] at htaylor
  have hsum := (hmiddle.add hrest 0 (by decide) (by norm_num)).shift htaylor
    (Real.abs_cos_le_one r)
  exact hsum.mono (by norm_num) le_rfl

/-- The sine some quarter turns on from a rest. -/
lemma approx_sineAt (q : ℤ) (h : Approx (1 / 2 ^ 30) (4 / 5) r x) :
    Approx (1 / 2 ^ 19) 1 (Real.sin (r + q * (Real.pi / 2))) (sineAt q x) := by
  obtain ⟨k, hk⟩ : ∃ k : ℤ, q = k * 4 + q % 4 := ⟨q / 4, by omega⟩
  have hturn : Real.sin (r + q * (Real.pi / 2)) =
      Real.sin (r + (q % 4 : ℤ) * (Real.pi / 2)) := by
    rw [← Real.sin_add_int_mul_two_pi (r + (q % 4 : ℤ) * (Real.pi / 2)) k]
    congr 1
    have hcast : (q : ℝ) = k * 4 + (q % 4 : ℤ) := by exact_mod_cast hk
    linear_combination (Real.pi / 2) * hcast
  have hnarrow : ∀ {s : ℝ} {z : Float}, Approx (15 / 2 ^ 23) 1 s z →
      Approx (1 / 2 ^ 19) 1 s (narrow z) := fun hz =>
    (hz.narrow (by norm_num)).mono (by norm_num) le_rfl
  rw [hturn]
  unfold sineAt
  apply hnarrow
  have hlow : 0 ≤ q % 4 := Int.emod_nonneg _ (by norm_num)
  have hhigh : q % 4 < 4 := Int.emod_lt_of_pos _ (by norm_num)
  generalize q % 4 = i at hlow hhigh
  obtain rfl | rfl | rfl | rfl : i = 0 ∨ i = 1 ∨ i = 2 ∨ i = 3 := by omega
  · simpa using approx_sineRest h
  · have hcos : Real.sin (r + ((1 : ℤ) : ℝ) * (Real.pi / 2)) = Real.cos r := by
      rw [Int.cast_one, one_mul, Real.sin_add_pi_div_two]
    rw [hcos]
    exact approx_cosineRest h
  · have hsin : Real.sin (r + ((2 : ℤ) : ℝ) * (Real.pi / 2)) = Real.sin (-r) := by
      rw [Int.cast_ofNat, mul_div_cancel₀ _ two_ne_zero, Real.sin_add_pi, Real.sin_neg]
    rw [hsin]
    exact approx_sineRest h.neg
  · have hcos : Real.sin (r + ((3 : ℤ) : ℝ) * (Real.pi / 2)) = -Real.cos r := by
      have hsplit : r + ((3 : ℤ) : ℝ) * (Real.pi / 2) = r + Real.pi / 2 + Real.pi := by
        push_cast
        ring
      rw [hsplit, Real.sin_add_pi, Real.sin_add_pi_div_two]
    rw [hcos]
    exact (approx_cosineRest h).neg

end Rest

/-! ## The reduction -/

namespace Reduced

lemma abs_wholePart_sub_le {x : Float} (hx : IsFinite x) (h : |val x| < 2 ^ 63) :
    |(wholePart x : ℝ) - val x| ≤ 1 := by
  have hzero : IsFinite (0 : Float) ∧ val (0 : Float) = magnitude .binary64 0 :=
    val_double_ofBits (n := 0) (by decide)
  rw [magnitude_zero] at hzero
  have hnat : ∀ {z : Float}, IsFinite z → 0 ≤ val z → val z < 2 ^ 63 →
      |((z.toUInt64.toNat : ℤ) : ℝ) - val z| ≤ 1 := by
    intro z hz h0 hlt
    have h₁ := toNat_toUInt64_le hz
    have h₂ := lt_toNat_toUInt64_add_one hz h0 hlt
    rw [abs_of_nonneg h0] at h₁
    rw [Int.cast_natCast, abs_le]
    constructor <;> linarith
  unfold wholePart
  split_ifs with hneg
  · rw [lt_iff_val_lt hx hzero.1, hzero.2] at hneg
    obtain ⟨hfinite, hval⟩ := finite_neg hx
    have hbound := hnat hfinite (by rw [hval]; linarith) (by
      rw [hval]
      exact (neg_le_abs _).trans_lt h)
    rw [hval, abs_le] at hbound
    push_cast at hbound ⊢
    rw [abs_le]
    constructor <;> linarith
  · rw [lt_iff_val_lt hx hzero.1, hzero.2, not_lt] at hneg
    exact hnat hx hneg ((le_abs_self _).trans_lt h)

lemma val_ofWhole {n : ℤ} (h : |n| ≤ 2 ^ 53) : IsFinite (ofWhole n) ∧ val (ofWhole n) = n := by
  rw [Int.abs_eq_natAbs] at h
  have hword : n.natAbs.toUInt64.toNat = n.natAbs := by
    have hlt : n.natAbs < 2 ^ 64 := by omega
    exact Nat.mod_eq_of_lt hlt
  obtain ⟨hfinite, hval⟩ := val_toFloat (n := n.natAbs.toUInt64) (by rw [hword]; omega)
  rw [hword] at hval
  unfold ofWhole
  split_ifs with hneg
  · obtain ⟨hfinite', hval'⟩ := finite_neg hfinite
    refine ⟨hfinite', ?_⟩
    have hcast : ((n.natAbs : ℤ) : ℝ) = ((-n : ℤ) : ℝ) := by
      congr 1
      omega
    rw [hval', hval, ← Int.cast_natCast, hcast]
    simp
  · refine ⟨hfinite, ?_⟩
    have hcast : ((n.natAbs : ℤ) : ℝ) = (n : ℝ) := by
      congr 1
      omega
    rw [hval, ← hcast, Int.cast_natCast]

/-- The factor of the reduction: the number of quarter turns in a radian, with 24 bits behind the
point. -/
lemma approx_factor :
    Approx (1 / 2 ^ 10) (2 ^ 24) (2 ^ 25 / Real.pi) (Float.ofBits 0x41645F306DC9C883) := by
  have hlow := Real.pi_gt_d20
  have hhigh := Real.pi_lt_d20
  have hpi : 0 < Real.pi := Real.pi_pos
  have hsize : |2 ^ 25 / Real.pi| ≤ (2 : ℝ) ^ 24 := by
    rw [abs_of_pos (by positivity), div_le_iff₀ hpi]
    norm_num
    linarith
  refine approx_double (k := 0x41645F306DC9C883) rfl (by norm_num) hsize ?_
  have hval : magnitude .binary64 0x41645F306DC9C883 = 5734161139222659 / 2 ^ 29 := by
    norm_num [magnitude_binary64]
  rw [hval, abs_le, le_sub_iff_add_le, sub_le_iff_le_add, ← sub_le_iff_le_add', le_div_iff₀ hpi,
    ← le_sub_iff_add_le', div_le_iff₀ hpi]
  norm_num
  constructor <;> linarith

/-- The quadrant is off the angle in quarter turns by not much more than one half. -/
lemma abs_div_sub_quadrant_le {y : Float} {r : ℝ} (hy : Approx 0 8 r y) :
    |r / (Real.pi / 2) - (moderate y).quadrant| ≤ 5001 / 10000 := by
  have hproduct : Approx (1 / 2 ^ 6) (2 ^ 27) (r * (2 ^ 25 / Real.pi))
      (y * Float.ofBits 0x41645F306DC9C883) :=
    (hy.mul approx_factor 27 (by decide) (by norm_num)).mono (by norm_num) (by norm_num)
  have hwhole := abs_wholePart_sub_le hproduct.1 (hproduct.abs_val_le.trans_lt (by norm_num))
  have hturns : r * (2 ^ 25 / Real.pi) = r / (Real.pi / 2) * 2 ^ 24 := by
    field_simp
  set z := y * Float.ofBits 0x41645F306DC9C883
  have hquadrant : (moderate y).quadrant = (wholePart z + 0x800000) / 2 ^ 24 :=
    Int.shiftRight_eq_div_pow _ _
  set q := (moderate y).quadrant
  have hdiv₁ : q * 2 ^ 24 ≤ wholePart z + 0x800000 := by omega
  have hdiv₂ : wholePart z + 0x800000 < q * 2 ^ 24 + 2 ^ 24 := by omega
  have hreal₁ : (q : ℝ) * 2 ^ 24 ≤ wholePart z + 0x800000 := by exact_mod_cast hdiv₁
  have hreal₂ : (wholePart z : ℝ) + 0x800000 < q * 2 ^ 24 + 2 ^ 24 := by exact_mod_cast hdiv₂
  obtain ⟨hwhole₁, hwhole₂⟩ := abs_le.mp hwhole
  obtain ⟨hproduct₁, hproduct₂⟩ := abs_le.mp hproduct.2.2
  rw [hturns] at hproduct₁ hproduct₂
  rw [abs_le]
  constructor <;> linarith

/-- Up to eight radians the quadrant is the number of quarter turns nearest to the angle. -/
lemma quadrant_moderate {y : Float} {r : ℝ} (hy : Approx 0 8 r y) (h0 : 0 ≤ r) :
    0 ≤ (moderate y).quadrant ∧ (moderate y).quadrant ≤ 8 ∧
      |r - (moderate y).quadrant * (Real.pi / 2)| ≤ 4 / 5 := by
  have hlow := Real.pi_gt_d20
  have hhigh := Real.pi_lt_d20
  have hpi : 0 < Real.pi / 2 := by positivity
  have hnear := abs_div_sub_quadrant_le hy
  set q := (moderate y).quadrant
  set t := r / (Real.pi / 2) with ht
  have hr : r = t * (Real.pi / 2) := by rw [ht, div_mul_cancel₀ _ hpi.ne']
  have ht₀ : 0 ≤ t := by positivity
  have ht₁ : t ≤ 6 := by
    rw [ht, div_le_iff₀ hpi]
    linarith [(abs_le.mp hy.2.1).2]
  obtain ⟨hnear₁, hnear₂⟩ := abs_le.mp hnear
  have hq₁ : (-1 : ℝ) < q := by linarith
  have hq₂ : (q : ℝ) < 9 := by linarith
  refine ⟨?_, ?_, ?_⟩
  · have : -1 < q := by exact_mod_cast hq₁
    omega
  · have : q < 9 := by exact_mod_cast hq₂
    omega
  · rw [hr, ← sub_mul, abs_mul, abs_of_pos hpi]
    calc |t - q| * (Real.pi / 2) ≤ 5001 / 10000 * (Real.pi / 2) := by gcongr
      _ ≤ 4 / 5 := by linarith

/-- The rest is the angle less the quarter turns. -/
lemma approx_rest_moderate {y : Float} {r : ℝ} (hy : Approx 0 8 r y) (h0 : 0 ≤ r) :
    Approx (1 / 2 ^ 30) (4 / 5) (r - (moderate y).quadrant * (Real.pi / 2)) (moderate y).rest := by
  obtain ⟨hq₁, hq₂, hrest⟩ := quadrant_moderate hy h0
  have hlow := Real.pi_gt_d20
  have hhigh := Real.pi_lt_d20
  have hleading : Approx (1 / 2 ^ 40) 2 (Real.pi / 2) (Float.ofBits 0x3FF921FB54442D00) := by
    refine approx_double (k := 0x3FF921FB54442D00) rfl (by norm_num) ?_ ?_
    · rw [abs_of_pos (by positivity)]
      linarith
    · have hval : magnitude .binary64 0x3FF921FB54442D00 = 7074237752028416 / 2 ^ 52 := by
        norm_num [magnitude_binary64]
      rw [hval, abs_le]
      constructor <;> norm_num <;> linarith
  have htrailing : Approx (1 / 2 ^ 40) 0 0 (Float.ofBits 0x3CF8000000000000) :=
    approx_double (k := 0x3CF8000000000000) rfl (by norm_num) (by norm_num)
      (by norm_num [magnitude_binary64])
  have hturns : Approx 0 8 ((moderate y).quadrant : ℝ) (ofWhole (moderate y).quadrant) := by
    obtain ⟨hfinite, hval⟩ := val_ofWhole (n := (moderate y).quadrant) (by rw [abs_le]; omega)
    have hcast : |((moderate y).quadrant : ℝ)| ≤ 8 := by
      have : |(moderate y).quadrant| ≤ 8 := by
        rw [abs_le]
        omega
      exact_mod_cast this
    rw [← hval] at hcast ⊢
    exact hfinite.approx hcast
  have hdiff := hy.sub (hturns.mul hleading 4 (by decide) (by norm_num)) 5 (by decide)
    (by norm_num)
  have hresult := hdiff.sub (hturns.mul htrailing 0 (by decide) (by norm_num)) 5 (by decide)
    (by norm_num)
  have hexact : r - (moderate y).quadrant * (Real.pi / 2) - (moderate y).quadrant * 0 =
      r - (moderate y).quadrant * (Real.pi / 2) := by ring
  rw [hexact] at hresult
  exact (hresult.cap hrest).mono (by norm_num) le_rfl

end Reduced

/-! ## The functions -/

section Functions

variable {y : Float32}

lemma toBits_of_val_pos (hy : IsFinite y) (h : 0 < val y) :
    y.toBits.toNat < 2 ^ 31 ∧ sizeBits y = y.toBits := by
  have hs : y.toBits.toNat < 2 ^ 31 := by
    by_contra hge
    rw [val_of_le hy (not_lt.mp hge)] at h
    linarith [magnitude_nonneg (f := .binary32) (y.toBits &&& 0x7FFFFFFF).toNat]
  refine ⟨hs, UInt32.toNat_inj.mp ?_⟩
  rw [sizeBits, toNat_and_single, Nat.mod_eq_of_lt hs]

lemma val_lt_of_sizeBits_lt {n : UInt32} {k : ℕ} (hn : n.toNat = k) (hy : IsFinite y)
    (h : sizeBits y < n) : |val y| < magnitude .binary32 k := by
  rw [abs_val_single hy, ← hn]
  exact magnitude_strictMono (UInt32.lt_iff_toNat_lt.mp h)

lemma le_val_of_sizeBits {n : UInt32} {k : ℕ} (hn : n.toNat = k) (hy : IsFinite y)
    (h : ¬ sizeBits y < n) : magnitude .binary32 k ≤ |val y| := by
  rw [abs_val_single hy, ← hn]
  exact magnitude_strictMono.monotone (UInt32.le_iff_toNat_le.mp (UInt32.not_lt.mp h))

/-- A tiny angle is its own sine, and its cosine is one. -/
lemma approx_of_tiny (hy : IsFinite y) (h : |val y| ≤ 1 / 2 ^ 12) :
    Approx (1 / 2 ^ 19) 1 (Real.sin (val y)) y ∧
      Approx (1 / 2 ^ 19) 1 (Real.cos (val y)) (1 : Float32) := by
  have hsquare : val y ^ 2 ≤ (1 / 2 ^ 12) ^ 2 := sq_le_sq' (abs_le.mp h).1 (abs_le.mp h).2
  constructor
  · have hsin : |val y - Real.sin (val y)| ≤ 1 / 2 ^ 19 := by
      have hbound := abs_le.mp (Real.sin_bound (h.trans (by norm_num)))
      have hcube : |val y ^ 3| ≤ (1 / 2 ^ 12) ^ 3 := by
        rw [abs_pow]
        gcongr
      have hfifth : |val y| ^ 5 ≤ (1 / 2 ^ 12) ^ 5 := by gcongr
      obtain ⟨hcube₁, hcube₂⟩ := abs_le.mp hcube
      rw [abs_le]
      constructor <;> norm_num at hcube₁ hcube₂ hfifth ⊢ <;> linarith [hbound.1, hbound.2]
    exact ((hy.approx le_rfl).shift hsin (Real.abs_sin_le_one _)).mono (by norm_num) le_rfl
  · refine ⟨below_one.1, Real.abs_cos_le_one _, ?_⟩
    have hlow := Real.one_sub_sq_div_two_le_cos (x := val y)
    have hhigh := Real.cos_le_one (val y)
    rw [val_one, abs_le]
    constructor <;> norm_num at hsquare ⊢ <;> linarith

/-- An angle that is not tiny loses nothing when it is widened. -/
lemma approx_widen (hy : IsFinite y) (h0 : 0 ≤ val y) (h8 : val y ≤ 8)
    (htiny : ¬ sizeBits y < 0x39800000) : Approx 0 8 (val y) (widen y) := by
  have hmin : magnitude .binary32 0x39800000 = 1 / 2 ^ 12 := by norm_num [magnitude_binary32]
  have hle := le_val_of_sizeBits (k := 0x39800000) rfl hy htiny
  rw [hmin, abs_of_nonneg h0] at hle
  obtain ⟨-, hsize⟩ := toBits_of_val_pos hy (lt_of_lt_of_le (by norm_num) hle)
  have hlow : 0x39800000 ≤ y.toBits.toNat := by
    rw [← hsize]
    exact UInt32.le_iff_toNat_le.mp (UInt32.not_lt.mp htiny)
  have hhigh : y.toBits.toNat < 0x7F800000 := by
    rw [← hsize]
    exact UInt32.lt_iff_toNat_lt.mp (sizeBits_lt_of_isFinite hy)
  obtain ⟨hfinite, hval⟩ := val_widen (y := y) (by omega) hhigh
  have habs : |val (widen y)| ≤ 8 := by
    rw [hval, abs_of_nonneg h0]
    exact h8
  rw [← hval]
  exact hfinite.approx habs

/-- **Accuracy.**  On the angles from zero to eight the sine and the cosine are within `2^-19` of
those of analysis. -/
theorem approx_sin_cos (hy : IsFinite y) (h0 : 0 ≤ val y) (h8 : val y ≤ 8) :
    Approx (1 / 2 ^ 19) 1 (Real.sin (val y)) (sin y) ∧
      Approx (1 / 2 ^ 19) 1 (Real.cos (val y)) (cos y) := by
  have hquarter : ∀ (r : ℝ) (q : ℤ),
      Real.sin (r + (q + 1 : ℤ) * (Real.pi / 2)) = Real.cos (r + q * (Real.pi / 2)) := by
    intro r q
    rw [← Real.sin_add_pi_div_two]
    congr 1
    push_cast
    ring
  have hcases := sinCos_of_isFinite hy
  generalize sin y = s, cos y = c at hcases ⊢
  cases hcases with
  | tiny htiny =>
    have hmin : magnitude .binary32 0x39800000 = 1 / 2 ^ 12 := by norm_num [magnitude_binary32]
    have hlt := val_lt_of_sizeBits_lt (k := 0x39800000) rfl hy htiny
    exact approx_of_tiny hy (hlt.le.trans_eq hmin)
  | small htiny hsmall =>
    have hwide := approx_widen hy h0 h8 htiny
    have hmax : magnitude .binary32 0x3F400000 = 3 / 4 := by norm_num [magnitude_binary32]
    have hlt := val_lt_of_sizeBits_lt (k := 0x3F400000) rfl hy hsmall
    rw [hmax] at hlt
    have hrest : Approx (1 / 2 ^ 30) (4 / 5) (val y) (widen y) :=
      (hwide.cap (by linarith)).mono (by norm_num) le_rfl
    have hsin := approx_sineAt 0 hrest
    have hcos := approx_sineAt (0 + 1) hrest
    rw [hquarter] at hcos
    simp only [Int.cast_zero, zero_mul, add_zero] at hsin hcos
    exact ⟨hsin, hcos⟩
  | moderate hsmall =>
    have hwide := approx_widen hy h0 h8 fun htiny => hsmall (UInt32.lt_trans htiny (by decide))
    have hrest := Reduced.approx_rest_moderate hwide h0
    have hsin := approx_sineAt (Reduced.moderate (widen y)).quadrant hrest
    have hcos := approx_sineAt ((Reduced.moderate (widen y)).quadrant + 1) hrest
    rw [hquarter] at hcos
    rw [sub_add_cancel] at hsin hcos
    exact ⟨hsin, hcos⟩
  | large hmoderate =>
    refine absurd (sizeBits_lt_of_below (k := 3) ⟨hy, ?_⟩ (by norm_num) (by decide)) hmoderate
    rw [abs_of_nonneg h0]
    norm_num
    exact h8

end Functions

end Arbor.Number
