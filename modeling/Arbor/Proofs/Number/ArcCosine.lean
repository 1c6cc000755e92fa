import Arbor.Number.ArcCosine
import Arbor.Proofs.Number.Range

/-!
# The arc cosine is finite

A rough bound of the arc cosine on `[-1, 1]` (`below_acos`).  The two quotients are what needs an
argument: the denominator of the rational approximation stays above three eighths on `[0, 1/4]`,
and the half-angle formula near one divides by a root that is at least `2^-13`, as no single lies
between `1 - 2^-24` and one.
-/

namespace Arbor.Number

open Float.Model (UnpackedFloat)
open Float.Model.UnpackedFloat

section Interval

variable {a b c d lo hi : ℝ} {x y z : Float32}

lemma Within.add (hx : Within a b x) (hy : Within c d y) (hlo : Held Float32 lo)
    (hhi : Held Float32 hi) (h₁ : lo ≤ a + c) (h₂ : b + d ≤ hi) : Within lo hi (x + y) :=
  within_add hlo hhi hx.1 hy.1 (h₁.trans (add_le_add hx.2.1 hy.2.1))
    ((add_le_add hx.2.2 hy.2.2).trans h₂)

/-- A product with a factor that is not negative. -/
lemma Within.mul (hx : Within 0 b x) (hy : Within c d y) (hlo : Held Float32 lo)
    (hhi : Held Float32 hi) (h₁ : lo ≤ min 0 (b * c)) (h₂ : max 0 (b * d) ≤ hi) :
    Within lo hi (x * y) := by
  obtain ⟨hx', hx0, hxb⟩ := hx
  obtain ⟨hy', hyc, hyd⟩ := hy
  obtain ⟨hlo0, hloc⟩ := le_min_iff.mp h₁
  obtain ⟨hhi0, hhid⟩ := max_le_iff.mp h₂
  refine within_mul hlo hhi hx' hy' ?_ ?_
  · have hlow : val x * c ≤ val x * val y := mul_le_mul_of_nonneg_left hyc hx0
    rcases le_total 0 c with hc | hc
    · have := mul_nonneg hx0 hc
      linarith
    · have := mul_le_mul_of_nonpos_right hxb hc
      linarith
  · have hhigh : val x * val y ≤ val x * d := mul_le_mul_of_nonneg_left hyd hx0
    rcases le_total 0 d with hd | hd
    · have := mul_le_mul_of_nonneg_right hxb hd
      linarith
    · have := mul_nonpos_of_nonneg_of_nonpos hx0 hd
      linarith

lemma within_ofBits_of_lt {n : UInt32} (h : n.toNat < 0x7F800000)
    (h₁ : lo ≤ magnitude .binary32 n.toNat) (h₂ : magnitude .binary32 n.toNat ≤ hi) :
    Within lo hi (Float32.ofBits n) := by
  have hsize : n.toNat % 2 ^ 31 < 0x7F800000 := (Nat.mod_le _ _).trans_lt h
  rw [Within, val_ofBits_of_lt h]
  exact ⟨isFinite_ofPattern (α := Float32) (b := n.toBitVec) hsize, h₁, h₂⟩

lemma within_ofBits_of_le {n : UInt32} (hs : 2 ^ 31 ≤ n.toNat)
    (h : n.toNat % 2 ^ 31 < 0x7F800000) (h₁ : lo ≤ -magnitude .binary32 (n.toNat % 2 ^ 31))
    (h₂ : -magnitude .binary32 (n.toNat % 2 ^ 31) ≤ hi) : Within lo hi (Float32.ofBits n) := by
  rw [Within, val_ofBits_of_le hs h]
  exact ⟨isFinite_ofPattern (α := Float32) (b := n.toBitVec) h, h₁, h₂⟩

end Interval

/-! ## The rational approximation -/

/-- The coefficients of the denominator, from the highest power down. -/
lemma within_arcCoefficients :
    Within 0 (1 / 8) (Float32.ofBits 0x3D9DC62E) ∧
      Within (-3 / 4) (-5 / 8) (Float32.ofBits 0xBF303361) ∧
        Within 2 (33 / 16) (Float32.ofBits 0x4001572D) ∧
          Within (-5 / 2) (-19 / 8) (Float32.ofBits 0xC019D139) := by
  refine ⟨within_ofBits_of_lt (by decide) ?_ ?_, within_ofBits_of_le (by decide) (by decide) ?_ ?_,
    within_ofBits_of_lt (by decide) ?_ ?_, within_ofBits_of_le (by decide) (by decide) ?_ ?_⟩ <;>
  · simp only [UInt32.reduceToNat]
    norm_num [magnitude_binary32]

lemma within_arcDenominator {z : Float32} (hz : Within 0 (1 / 4) z) :
    Within (3 / 8) 1 (1 + z * (Float32.ofBits 0xC019D139 + z * (Float32.ofBits 0x4001572D
      + z * (Float32.ofBits 0xBF303361 + z * Float32.ofBits 0x3D9DC62E)))) := by
  obtain ⟨h₄, h₃, h₂, h₁⟩ := within_arcCoefficients
  have hone : Within 1 1 (1 : Float32) := by
    rw [Within, val_one]
    exact ⟨isFinite_iff.mp (by decide), le_rfl, le_rfl⟩
  have hfourth := hz.mul h₄ held_zero
    (held_dyadic (b := 1 / 32) 1 5 (by norm_num) (by norm_num) (by norm_num))
    (by norm_num) (by norm_num)
  have hthird := h₃.add hfourth
    (held_dyadic (b := -3 / 4) (-3) 2 (by norm_num) (by norm_num) (by norm_num))
    (held_dyadic (b := -1 / 2) (-1) 1 (by norm_num) (by norm_num) (by norm_num))
    (by norm_num) (by norm_num)
  have hthird' := hz.mul hthird
    (held_dyadic (b := -3 / 16) (-3) 4 (by norm_num) (by norm_num) (by norm_num)) held_zero
    (by norm_num) (by norm_num)
  have hsecond := h₂.add hthird'
    (held_dyadic (b := 7 / 4) 7 2 (by norm_num) (by norm_num) (by norm_num))
    (held_dyadic (b := 33 / 16) 33 4 (by norm_num) (by norm_num) (by norm_num))
    (by norm_num) (by norm_num)
  have hsecond' := hz.mul hsecond held_zero
    (held_dyadic (b := 33 / 64) 33 6 (by norm_num) (by norm_num) (by norm_num))
    (by norm_num) (by norm_num)
  have hfirst := h₁.add hsecond'
    (held_dyadic (b := -5 / 2) (-5) 1 (by norm_num) (by norm_num) (by norm_num))
    (held_dyadic (b := -7 / 4) (-7) 2 (by norm_num) (by norm_num) (by norm_num))
    (by norm_num) (by norm_num)
  have hfirst' := hz.mul hfirst
    (held_dyadic (b := -5 / 8) (-5) 3 (by norm_num) (by norm_num) (by norm_num)) held_zero
    (by norm_num) (by norm_num)
  exact hone.add hfirst'
    (held_dyadic (b := 3 / 8) 3 3 (by norm_num) (by norm_num) (by norm_num))
    (held_dyadic (b := 1) 1 0 (by norm_num) (by norm_num) (by norm_num))
    (by norm_num) (by norm_num)

/-- One step down the coefficients of the numerator, which are at most one. -/
lemma below_hornerStep {y z : Float32} {k : ℕ} {n : UInt32} (hz : Below 0 z) (hy : Below k y)
    (hn : n.toNat % 2 ^ 31 ≤ 127 * 2 ^ 23) (hk : k < 127) :
    Below (k + 1) (Float32.ofBits n + z * y) := by
  have hproduct : Below k (z * y) := hz.mul_single hy (by omega) (by omega)
  have hn' : Below 0 (Float32.ofBits n) := below_ofBits (by norm_num) (by simpa using hn)
  exact hn'.add_single hproduct (by omega) (by omega) (by omega)

lemma below_arcRatio {z : Float32} (hz : Within 0 (1 / 4) z) : Below 7 (arcRatio z) := by
  have hz' : Below 0 z := hz.below (by norm_num) (by norm_num)
  have hlast : Below 0 (Float32.ofBits 0x3811EF08) := below_ofBits (by norm_num) (by decide)
  have hfifth := below_hornerStep (n := 0x3A4F7F04) hz' hlast (by decide) (by norm_num)
  have hfourth := below_hornerStep (n := 0xBD241146) hz' hfifth (by decide) (by norm_num)
  have hthird := below_hornerStep (n := 0x3E4E0AA8) hz' hfourth (by decide) (by norm_num)
  have hsecond := below_hornerStep (n := 0xBEA6B090) hz' hthird (by decide) (by norm_num)
  have hfirst := below_hornerStep (n := 0x3E2AAAAB) hz' hsecond (by decide) (by norm_num)
  obtain ⟨hp, hpval⟩ : Below 5 _ := hz'.mul_single hfirst (by norm_num) (by norm_num)
  obtain ⟨hq, hlow, -⟩ := within_arcDenominator hz
  have hpos := lt_of_lt_of_le (by norm_num : (0 : ℝ) < 3 / 8) hlow
  apply below_div (by decide) hp hq hpos.ne'
  rw [abs_div, abs_of_pos hpos, div_le_iff₀ hpos]
  linarith

/-! ## Half angles -/

lemma val_half : val (0.5 : Float32) = 1 / 2 := by
  have hfinite : IsFinite (0.5 : Float32) := isFinite_iff.mp (by decide)
  have hbits : (0.5 : Float32).toBits.toNat = 0x3F000000 := by decide
  rw [val_of_lt hfinite (by rw [hbits]; norm_num), hbits]
  norm_num [magnitude_binary32]

lemma within_half {lo : ℝ} {y : Float32} (hlo : Held Float32 (lo / 2))
    (hy : Within lo (1 / 2) y) : Within (lo / 2) (1 / 4) (y * 0.5) := by
  obtain ⟨hfinite, hlow, hhigh⟩ := hy
  have hheld : Held Float32 (1 / 4) := held_dyadic 1 2 (by norm_num) (by norm_num) (by norm_num)
  refine within_mul hlo hheld hfinite (isFinite_iff.mp (by decide)) ?_ ?_
  · rw [val_half]
    linarith
  · rw [val_half]
    linarith

lemma magnitude_half : magnitude .binary32 0x3F000000 = 1 / 2 := by
  norm_num [magnitude_binary32]

/-- The largest single below one. -/
lemma magnitude_pred_one : magnitude .binary32 0x3F7FFFFF = 1 - 1 / 2 ^ 24 := by
  norm_num [magnitude_binary32]

/-- The square of this one is the least that is halved near one, divided by two. -/
lemma magnitude_root : magnitude .binary32 0x39000000 = 1 / 2 ^ 13 := by
  norm_num [magnitude_binary32]

lemma toNat_and_leading (n : UInt32) : (n &&& 0xFFFFF000).toNat = n.toNat / 2 ^ 12 * 2 ^ 12 := by
  have hmask : (0xFFFFF000 : UInt32).toNat = (2 ^ 20 - 1) <<< 12 := by decide
  rw [UInt32.toNat_and, hmask, ← Nat.shiftLeft_eq]
  apply Nat.eq_of_testBit_eq
  intro i
  rw [Nat.testBit_and, Nat.testBit_shiftLeft, Nat.testBit_shiftLeft, Nat.testBit_two_pow_sub_one,
    Nat.testBit_div_two_pow]
  by_cases hi : 12 ≤ i
  · by_cases hi' : i - 12 < 20
    · simp [hi, hi']
    · have hlt : n.toNat < 2 ^ i :=
        n.toNat_lt.trans_le (Nat.pow_le_pow_right (by norm_num) (by omega))
      simp [hi, Nat.testBit_lt_two_pow hlt]
  · simp [hi]

/-- The leading part of a root keeps its exponent and does not pass it. -/
lemma within_leading {s : Float32} (hs : Within (1 / 2 ^ 13) 1 s) :
    Within (1 / 2 ^ 13) 1 (Float32.ofBits (s.toBits &&& 0xFFFFF000)) := by
  obtain ⟨hfinite, hlow, hhigh⟩ := hs
  have hpositive : s.toBits.toNat < 2 ^ 31 := by
    by_contra hge
    have hval := val_of_le hfinite (not_lt.mp hge)
    have := magnitude_nonneg (f := .binary32) (s.toBits &&& 0x7FFFFFFF).toNat
    have : (0 : ℝ) < 1 / 2 ^ 13 := by positivity
    linarith
  have hmask : (s.toBits &&& 0xFFFFF000).toNat = s.toBits.toNat / 2 ^ 12 * 2 ^ 12 :=
    toNat_and_leading _
  rw [val_of_lt hfinite hpositive] at hlow hhigh
  rw [← magnitude_root, magnitude_strictMono.le_iff_le] at hlow
  rw [← magnitude_one, magnitude_strictMono.le_iff_le] at hhigh
  apply within_ofBits_of_lt
  · rw [hmask]
    omega
  · rw [hmask, ← magnitude_root, magnitude_strictMono.le_iff_le]
    omega
  · rw [hmask, ← magnitude_one, magnitude_strictMono.le_iff_le]
    omega

/-! ## The function -/

section

variable {x : Float32}

lemma below_sqrt {z : Float32} {lo : ℝ} (hlo : 0 ≤ lo) (hz : Within lo (1 / 4) z) :
    Below 0 z.sqrt := by
  obtain ⟨hfinite, hlow, hhigh⟩ := hz
  have h := within_sqrt (x := z) held_zero
    (held_dyadic 1 0 (by norm_num) (by norm_num) (by norm_num)) hfinite (hlo.trans hlow)
    (Real.sqrt_nonneg _) (Real.sqrt_le_one.mpr (by linarith))
  exact h.below (by norm_num) (by norm_num)

lemma below_halfPiLow : Below 0 halfPiLow := below_ofBits (by norm_num) (by decide)

lemma below_halfPiHigh : Below 1 halfPiHigh := below_ofBits (by norm_num) (by decide)

lemma below_acos_of_small (hx : IsFinite x) (h : |val x| ≤ 1 / 2) :
    Below 10 (halfPiHigh - (x - (halfPiLow - x * arcRatio (x * x)))) := by
  have hx' : Below 0 x := ⟨hx, by linarith⟩
  have hsquare : Within 0 (1 / 4) (x * x) := by
    apply within_mul held_zero (held_dyadic 1 2 (by norm_num) (by norm_num) (by norm_num)) hx hx
    · exact mul_self_nonneg _
    · rw [← abs_mul_abs_self]
      nlinarith [abs_nonneg (val x)]
  have hproduct : Below 7 (x * arcRatio (x * x)) :=
    hx'.mul_single (below_arcRatio hsquare) le_rfl (by norm_num)
  have hrest : Below 8 (halfPiLow - x * arcRatio (x * x)) :=
    below_halfPiLow.sub_single hproduct (by norm_num) (by norm_num) (by norm_num)
  have hangle : Below 9 (x - (halfPiLow - x * arcRatio (x * x))) :=
    hx'.sub_single hrest (by norm_num) (by norm_num) (by norm_num)
  exact below_halfPiHigh.sub_single hangle (by norm_num) (by norm_num) (by norm_num)

lemma below_acos_of_negative (hx : IsFinite x) (hlow : -1 ≤ val x) (hhigh : val x ≤ -(1 / 2)) :
    Below 11 (Float32.ofBits 0x40490FDA - 2 * (((1 + x) * 0.5).sqrt +
      (arcRatio ((1 + x) * 0.5) * ((1 + x) * 0.5).sqrt - halfPiLow))) := by
  have hsum : Within 0 (1 / 2) (1 + x) := by
    apply within_add held_zero (held_dyadic 1 1 (by norm_num) (by norm_num) (by norm_num))
      below_one.1 hx
    · rw [val_one]
      linarith
    · rw [val_one]
      linarith
  have hz := within_half (by rw [zero_div]; exact held_zero) hsum
  rw [zero_div] at hz
  generalize (1 + x) * 0.5 = z at hz ⊢
  have hroot := below_sqrt le_rfl hz
  have hproduct : Below 7 (arcRatio z * z.sqrt) :=
    (below_arcRatio hz).mul_single hroot le_rfl (by norm_num)
  have hrest : Below 8 (arcRatio z * z.sqrt - halfPiLow) :=
    hproduct.sub_single below_halfPiLow (by norm_num) (by norm_num) (by norm_num)
  have hangle : Below 9 (z.sqrt + (arcRatio z * z.sqrt - halfPiLow)) :=
    hroot.add_single hrest (by norm_num) (by norm_num) (by norm_num)
  have hdouble : Below 10 (2 * (z.sqrt + (arcRatio z * z.sqrt - halfPiLow))) :=
    below_two.mul_single hangle (by norm_num) (by norm_num)
  have hturn : Below 2 (Float32.ofBits 0x40490FDA) := below_ofBits (by norm_num) (by decide)
  exact hturn.sub_single hdouble (by norm_num) (by norm_num) (by norm_num)

/-- What the leading part of a root lacks, by the difference of the squares. -/
lemma below_rootRest {z s l : Float32} (hz : Within 0 (1 / 4) z) (hs : Within (1 / 2 ^ 13) 1 s)
    (hl : Within (1 / 2 ^ 13) 1 l) : Below 13 ((z - l * l) / (s + l)) := by
  have hone : Held Float32 1 := held_dyadic 1 0 (by norm_num) (by norm_num) (by norm_num)
  have hl0 : 0 ≤ val l := le_trans (by positivity) hl.2.1
  have hsquare : Within 0 1 (l * l) := by
    apply within_mul held_zero hone hl.1 hl.1
    · exact mul_self_nonneg _
    · nlinarith [hl.2.2]
  have hnumerator : Below 0 (z - l * l) := by
    apply below_sub (by decide) hz.1 hsquare.1
    rw [abs_le]
    constructor <;> linarith [hz.2.1, hz.2.2, hsquare.2.1, hsquare.2.2]
  obtain ⟨hfinite, hlow, -⟩ : Within (1 / 2 ^ 13) 2 (s + l) := by
    apply hs.add hl (held_dyadic 1 13 (by norm_num) (by norm_num) (by norm_num))
      (held_dyadic 2 0 (by norm_num) (by norm_num) (by norm_num))
    · norm_num
    · norm_num
  have hpos : 0 < val (s + l) := lt_of_lt_of_le (by positivity) hlow
  apply below_div (by decide) hnumerator.1 hfinite hpos.ne'
  rw [abs_div, abs_of_pos hpos, div_le_iff₀ hpos]
  have hval := hnumerator.2
  norm_num at hval hlow ⊢
  linarith

lemma below_acos_of_positive (hx : IsFinite x) (hlow : 1 / 2 ≤ val x)
    (hhigh : val x ≤ 1 - 1 / 2 ^ 24) :
    Below 16 (2 * (Float32.ofBits (((1 - x) * 0.5).sqrt.toBits &&& 0xFFFFF000) +
      (arcRatio ((1 - x) * 0.5) * ((1 - x) * 0.5).sqrt +
        ((1 - x) * 0.5 - Float32.ofBits (((1 - x) * 0.5).sqrt.toBits &&& 0xFFFFF000) *
            Float32.ofBits (((1 - x) * 0.5).sqrt.toBits &&& 0xFFFFF000)) /
          (((1 - x) * 0.5).sqrt +
            Float32.ofBits (((1 - x) * 0.5).sqrt.toBits &&& 0xFFFFF000))))) := by
  have hdifference : Within (1 / 2 ^ 25) (1 / 2) (1 - x) := by
    apply within_sub (held_dyadic 1 25 (by norm_num) (by norm_num) (by norm_num))
      (held_dyadic 1 1 (by norm_num) (by norm_num) (by norm_num)) below_one.1 hx
    · rw [val_one]
      norm_num at hhigh ⊢
      linarith
    · rw [val_one]
      linarith
  have hz := within_half (held_dyadic 1 26 (by norm_num) (by norm_num) (by norm_num)) hdifference
  generalize (1 - x) * 0.5 = z at hz ⊢
  have hz0 : Within 0 (1 / 4) z := ⟨hz.1, le_trans (by positivity) hz.2.1, hz.2.2⟩
  have hs : Within (1 / 2 ^ 13) 1 z.sqrt := by
    apply within_sqrt (held_dyadic 1 13 (by norm_num) (by norm_num) (by norm_num))
      (held_dyadic 1 0 (by norm_num) (by norm_num) (by norm_num)) hz.1 hz0.2.1
    · apply Real.le_sqrt_of_sq_le
      refine le_trans ?_ hz.2.1
      norm_num
    · exact Real.sqrt_le_one.mpr (by linarith [hz.2.2])
  have hl := within_leading hs
  generalize Float32.ofBits (z.sqrt.toBits &&& 0xFFFFF000) = l at hl ⊢
  have hs' : Below 0 z.sqrt := below_sqrt le_rfl hz0
  have hl' : Below 0 l := hl.below (by norm_num) (by norm_num)
  have hproduct : Below 7 (arcRatio z * z.sqrt) :=
    (below_arcRatio hz0).mul_single hs' le_rfl (by norm_num)
  have hrest : Below 14 (arcRatio z * z.sqrt + (z - l * l) / (z.sqrt + l)) :=
    hproduct.add_single (below_rootRest hz0 hs hl) (by norm_num) (by norm_num) (by norm_num)
  have hangle : Below 15 (l + (arcRatio z * z.sqrt + (z - l * l) / (z.sqrt + l))) :=
    hl'.add_single hrest (by norm_num) (by norm_num) (by norm_num)
  exact below_two.mul_single hangle (by norm_num) (by norm_num)

/-- The angle of every cosine is finite. -/
theorem below_acos (hx : IsFinite x) (h : |val x| ≤ 1) : Below 16 (acos x) := by
  have hsize : (x.toBits &&& 0x7FFFFFFF).toNat ≤ 0x3F800000 := by
    rwa [abs_val_single hx, ← magnitude_one, magnitude_strictMono.le_iff_le] at h
  unfold acos
  dsimp only
  split_ifs with hone hsign hlarge hsmall htiny hnegative
  · exact below_zero.mono (by norm_num)
  · have hturn : Below 2 (Float32.ofBits 0x40490FDA) := below_ofBits (by norm_num) (by decide)
    have hlow : Below 1 (2 * halfPiLow) :=
      below_two.mul_single below_halfPiLow le_rfl (by norm_num)
    exact hturn.add_single hlow (by norm_num) (by norm_num) (by norm_num)
  · exact absurd (UInt32.lt_iff_toNat_lt.mp hlarge) (not_lt.mpr hsize)
  · exact below_halfPiHigh.add_single below_halfPiLow (by norm_num) (by norm_num) (by norm_num)
  · refine (below_acos_of_small hx ?_).mono (by norm_num)
    rw [abs_val_single hx, ← magnitude_half]
    exact magnitude_strictMono.monotone (UInt32.lt_iff_toNat_lt.mp hsmall).le
  · refine (below_acos_of_negative hx (abs_le.mp h).1 ?_).mono (by norm_num)
    rw [val_of_le hx (UInt32.le_iff_toNat_le.mp hnegative), ← magnitude_half]
    apply neg_le_neg
    exact magnitude_strictMono.monotone (UInt32.le_iff_toNat_le.mp (UInt32.not_lt.mp hsmall))
  · have hpositive : x.toBits.toNat < 2 ^ 31 :=
      UInt32.lt_iff_toNat_lt.mp (UInt32.not_le.mp hnegative)
    have hmod : (x.toBits &&& 0x7FFFFFFF).toNat = x.toBits.toNat := by
      rw [toNat_and_single, Nat.mod_eq_of_lt hpositive]
    have hne : (x.toBits &&& 0x7FFFFFFF).toNat ≠ 0x3F800000 := fun heq =>
      hone (UInt32.toNat_inj.mp heq)
    have hhalf : 0x3F000000 ≤ (x.toBits &&& 0x7FFFFFFF).toNat :=
      UInt32.le_iff_toNat_le.mp (UInt32.not_lt.mp hsmall)
    apply below_acos_of_positive hx
    · rw [val_of_lt hx hpositive, ← magnitude_half, magnitude_strictMono.le_iff_le]
      omega
    · rw [val_of_lt hx hpositive, ← magnitude_pred_one, magnitude_strictMono.le_iff_le]
      omega

end

end Arbor.Number
