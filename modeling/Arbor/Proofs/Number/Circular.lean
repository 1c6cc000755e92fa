import Arbor.Number.Circular
import Arbor.Proofs.Number.Conversion

/-!
# Sine and cosine are finite

Rough bounds of the two functions, by powers of two.  They are far from the true ones, but they
hold for every finite angle, however large, and they are small enough for the products of a
rotation to stay in range (`below_sin_cos`).  Angles below three quarters and angles up to
eight have smaller ones.
-/

namespace Arbor.Number

/-- A double constant that is at most one. -/
lemma below_zero_ofBits {n : UInt64} (h : n.toNat % 2 ^ 63 ≤ 1023 * 2 ^ 52) :
    Below 0 (Float.ofBits n) :=
  below_double_ofBits (by norm_num) (by simpa using h)

/-! ## The polynomials -/

section Rest

variable {x : Float} {k : ℕ}

lemma below_sineRest (h : Below k x) (hk : k ≤ 100) : Below (8 * k + 3) (sineRest x) := by
  have hsquare : Below (2 * k) (x * x) := h.mul_double h (by omega) (by omega)
  have hcube : Below (3 * k) (x * (x * x)) := h.mul_double hsquare (by omega) (by omega)
  have hfifth : Below (5 * k) (x * (x * x) * (x * x)) :=
    hcube.mul_double hsquare (by omega) (by omega)
  have hlast : Below (2 * k) (x * x * Float.ofBits 0xBF2994EB3774CF24) :=
    hsquare.mul_double (below_zero_ofBits (by decide)) (by omega) (by omega)
  have htail : Below (2 * k + 1)
      (Float.ofBits 0x3F81107605230BC4 + x * x * Float.ofBits 0xBF2994EB3774CF24) :=
    (below_zero_ofBits (by decide)).add_double hlast (by omega) (by omega) (by omega)
  have hfirst : Below (3 * k) (x * (x * x) * Float.ofBits 0xBFC555545995A603) :=
    hcube.mul_double (below_zero_ofBits (by decide)) (by omega) (by omega)
  have hhead : Below (3 * k + 1) (x + x * (x * x) * Float.ofBits 0xBFC555545995A603) :=
    h.add_double hfirst (by omega) (by omega) (by omega)
  have hrest : Below (7 * k + 1) (x * (x * x) * (x * x) *
      (Float.ofBits 0x3F81107605230BC4 + x * x * Float.ofBits 0xBF2994EB3774CF24)) :=
    hfifth.mul_double htail (by omega) (by omega)
  exact hhead.add_double hrest (by omega) (by omega) (by omega)

lemma below_cosineRest (h : Below k x) (hk : k ≤ 100) : Below (8 * k + 3) (cosineRest x) := by
  have hsquare : Below (2 * k) (x * x) := h.mul_double h (by omega) (by omega)
  have hfourth : Below (4 * k) (x * x * (x * x)) :=
    hsquare.mul_double hsquare (by omega) (by omega)
  have hsixth : Below (6 * k) (x * x * (x * x) * (x * x)) :=
    hfourth.mul_double hsquare (by omega) (by omega)
  have hlast : Below (2 * k) (x * x * Float.ofBits 0x3EF99343027BF8C3) :=
    hsquare.mul_double (below_zero_ofBits (by decide)) (by omega) (by omega)
  have htail : Below (2 * k + 1)
      (Float.ofBits 0xBF56C087E89A359D + x * x * Float.ofBits 0x3EF99343027BF8C3) :=
    (below_zero_ofBits (by decide)).add_double hlast (by omega) (by omega) (by omega)
  have hsecond : Below (2 * k) (x * x * Float.ofBits 0xBFDFFFFFFD0C621C) :=
    hsquare.mul_double (below_zero_ofBits (by decide)) (by omega) (by omega)
  have hhead : Below (2 * k + 1)
      (Float.ofBits 0x3FF0000000000000 + x * x * Float.ofBits 0xBFDFFFFFFD0C621C) :=
    (below_zero_ofBits (by decide)).add_double hsecond (by omega) (by omega) (by omega)
  have hmiddle : Below (4 * k) (x * x * (x * x) * Float.ofBits 0x3FA55553E1068F19) :=
    hfourth.mul_double (below_zero_ofBits (by decide)) (by omega) (by omega)
  have hsum : Below (4 * k + 2) (Float.ofBits 0x3FF0000000000000 +
      x * x * Float.ofBits 0xBFDFFFFFFD0C621C +
        x * x * (x * x) * Float.ofBits 0x3FA55553E1068F19) :=
    hhead.add_double hmiddle (by omega) (by omega) (by omega)
  have hrest : Below (8 * k + 1) (x * x * (x * x) * (x * x) *
      (Float.ofBits 0xBF56C087E89A359D + x * x * Float.ofBits 0x3EF99343027BF8C3)) :=
    hsixth.mul_double htail (by omega) (by omega)
  exact hsum.add_double hrest (by omega) (by omega) (by omega)

/-- The sine of a reduced angle, in whichever quadrant. -/
lemma below_sineAt (q : ℤ) (h : Below k x) (hk : k ≤ 15) : Below (8 * k + 3) (sineAt q x) := by
  unfold sineAt
  apply below_narrow _ (by omega)
  split
  · exact below_sineRest h (by omega)
  · exact below_cosineRest h (by omega)
  · exact below_sineRest h.neg (by omega)
  · exact (below_cosineRest h (by omega)).neg

end Rest

/-! ## The reductions -/

namespace Reduced

lemma abs_wholePart_le {x : Float} {k : ℕ} (h : Below k x) : |wholePart x| ≤ 2 ^ k := by
  have hnat : ∀ y : Float, Below k y → (y.toUInt64.toNat : ℤ) ≤ 2 ^ k := by
    intro y hy
    have := (toNat_toUInt64_le hy.1).trans hy.2
    exact_mod_cast this
  unfold wholePart
  split_ifs
  · rw [abs_neg, abs_of_nonneg (Int.natCast_nonneg _)]
    exact hnat _ h.neg
  · rw [abs_of_nonneg (Int.natCast_nonneg _)]
    exact hnat _ h

lemma below_ofWhole {n : ℤ} {k : ℕ} (h : |n| ≤ 2 ^ k) (hk : k < 64) : Below k (ofWhole n) := by
  have hnat : n.natAbs ≤ 2 ^ k := by
    rw [Int.abs_eq_natAbs] at h
    exact_mod_cast h
  have hword : n.natAbs.toUInt64.toNat ≤ 2 ^ k := le_trans (Nat.mod_le _ _) hnat
  have hfloat := below_toFloat hword (by omega)
  unfold ofWhole
  split_ifs
  · exact hfloat.neg
  · exact hfloat

lemma abs_shiftRight_le {n : ℤ} {j : ℕ} (h : |n| ≤ 2 ^ (j + 24)) :
    |(n + 0x800000).shiftRight 24| ≤ 2 ^ (j + 1) := by
  have hdiv : (n + 0x800000).shiftRight 24 = (n + 0x800000) / 2 ^ 24 :=
    Int.shiftRight_eq_div_pow _ _
  have hone : (1 : ℤ) ≤ 2 ^ j := one_le_pow₀ (by norm_num)
  rw [pow_add] at h
  rw [pow_succ, hdiv]
  rw [abs_le] at h ⊢
  omega

lemma below_rest_moderate {y : Float} {j : ℕ} (h : Below j y) (hj : j ≤ 7) :
    Below (j + 4) (moderate y).rest := by
  have hproduct : Below (j + 24) (y * Float.ofBits 0x41645F306DC9C883) :=
    h.mul_double (l := 24) (below_double_ofBits (by norm_num) (by decide)) le_rfl (by omega)
  have hquadrant := abs_shiftRight_le (abs_wholePart_le hproduct)
  have hturns := below_ofWhole hquadrant (by omega)
  have hlarge : Below (j + 2) _ :=
    hturns.mul_double (below_double_ofBits (n := 0x3FF921FB54442D00) (k := 1) (by norm_num)
      (by decide)) (by omega) (by omega)
  have hsmall : Below (j + 1) _ :=
    hturns.mul_double (below_zero_ofBits (n := 0x3CF8000000000000) (by decide)) (by omega)
      (by omega)
  have hleading : Below (j + 3) _ := h.sub_double hlarge (by omega) (by omega) (by omega)
  exact hleading.sub_double hsmall (by omega) (by omega) (by omega)

/-- The unit of the fraction is so small that the largest fraction is a moderate number. -/
lemma below_ofFraction (rest : UInt64) : Below 4 (ofFraction rest) := by
  have hfloat : ∀ n : UInt64, Below 64 n.toFloat := fun n =>
    below_toFloat n.toNat_lt_size.le (by norm_num)
  have hunit : |val (Float.ofBits 0x3C1921FB54442D18)| ≤ 1 / 2 ^ 61 := by
    have habs : |val (Float.ofBits 0x3C1921FB54442D18)| = magnitude .binary64 0x3C1921FB54442D18 :=
      abs_val_ofPattern (α := Float) (b := 0x3C1921FB54442D18#64) (by decide)
    rw [habs]
    norm_num [magnitude_binary64]
  have hfinite : IsFinite (Float.ofBits 0x3C1921FB54442D18) :=
    (below_zero_ofBits (by decide)).1
  have hscaled : ∀ x : Float, Below 64 x → Below 4 (x * Float.ofBits 0x3C1921FB54442D18) := by
    intro x hx
    apply below_mul (by decide) hx.1 hfinite
    calc |val x * val (Float.ofBits 0x3C1921FB54442D18)| ≤ 2 ^ 64 * (1 / 2 ^ 61) := by
          rw [abs_mul]
          exact mul_le_mul hx.2 hunit (abs_nonneg _) (by positivity)
      _ ≤ 2 ^ 4 := by norm_num
  unfold ofFraction
  apply hscaled
  split_ifs
  · exact hfloat _
  · exact (hfloat _).neg

lemma below_rest_large (bits : UInt32) : Below 4 (large bits).rest := below_ofFraction _

end Reduced

/-! ## The functions -/

variable {y : Float32}

lemma below_of_sizeBits_lt {k : ℕ} {n : UInt32} (h : sizeBits y < n)
    (hn : n.toNat ≤ (k + 127) * 2 ^ 23) (hk : k < 128) : Below k y := by
  rw [below_iff_toNat_le hk]
  exact (UInt32.lt_iff_toNat_lt.mp h).le.trans hn

lemma sizeBits_lt_of_isFinite (h : IsFinite y) : sizeBits y < 0x7F800000 :=
  UInt32.lt_iff_toNat_lt.mpr (isFinite_iff_toNat_lt.mp h)

lemma sizeBits_lt_of_below {k : ℕ} {n : UInt32} (h : Below k y) (hk : k < 128)
    (hn : (k + 127) * 2 ^ 23 < n.toNat) : sizeBits y < n :=
  UInt32.lt_iff_toNat_lt.mpr (((below_iff_toNat_le hk).mp h).trans_lt hn)

/-- The sine and the cosine of a finite angle.  A tiny angle is its own sine, a small one its own
rest, and the others are reduced in one of two ways. -/
inductive SinCos (y : Float32) : Float32 → Float32 → Prop
  | tiny (h : sizeBits y < 0x39800000) : SinCos y y 1
  | small (hlow : ¬ sizeBits y < 0x39800000) (h : sizeBits y < 0x3F400000) :
    SinCos y (sineAt 0 (widen y)) (sineAt 1 (widen y))
  | moderate (hlow : ¬ sizeBits y < 0x3F400000) (h : sizeBits y < 0x42F00000) :
    SinCos y (sineAt (Reduced.moderate (widen y)).quadrant (Reduced.moderate (widen y)).rest)
      (sineAt ((Reduced.moderate (widen y)).quadrant + 1) (Reduced.moderate (widen y)).rest)
  | large (hlow : ¬ sizeBits y < 0x42F00000) (r : Reduced) (hr : r = Reduced.large y.toBits) :
    SinCos y (if y.toBits < signBit then sineAt r.quadrant r.rest else sineAt (r.quadrant + 2) r.rest)
      (sineAt (r.quadrant + 1) r.rest)

lemma sinCos_of_isFinite (h : IsFinite y) : SinCos y (sin y) (cos y) := by
  have hfinite := sizeBits_lt_of_isFinite h
  unfold sin cos
  dsimp only
  by_cases htiny : sizeBits y < 0x39800000
  · rw [if_pos htiny, if_pos htiny]
    exact .tiny htiny
  rw [if_neg htiny, if_neg htiny]
  by_cases hsmall : sizeBits y < 0x3F400000
  · rw [if_pos hsmall, if_pos hsmall]
    exact .small htiny hsmall
  rw [if_neg hsmall, if_neg hsmall]
  by_cases hmoderate : sizeBits y < 0x42F00000
  · rw [if_pos hmoderate, if_pos hmoderate]
    exact .moderate hsmall hmoderate
  rw [if_neg hmoderate, if_neg hmoderate, if_pos hfinite, if_pos hfinite]
  exact .large hmoderate _ rfl

/-- Below three quarters there is no reduction. -/
lemma below_sin_cos_of_small (h : sizeBits y < 0x3F400000) : Below 3 (sin y) ∧ Below 3 (cos y) := by
  have hy : Below 0 y := below_of_sizeBits_lt h (by decide) (by norm_num)
  have hcases := sinCos_of_isFinite hy.1
  generalize sin y = s, cos y = c at hcases ⊢
  cases hcases with
  | tiny => exact ⟨hy.mono (by norm_num), below_one.mono (by norm_num)⟩
  | small =>
    have hwide := below_widen hy (by norm_num)
    exact ⟨below_sineAt _ hwide (by norm_num), below_sineAt _ hwide (by norm_num)⟩
  | moderate hlow => exact absurd h hlow
  | large hlow => exact absurd (UInt32.lt_trans h (by decide)) hlow

lemma below_sin_cos_of_moderate {j : ℕ} (h : sizeBits y < 0x42F00000) (hy : Below j y)
    (hj : j ≤ 7) : Below (8 * j + 35) (sin y) ∧ Below (8 * j + 35) (cos y) := by
  by_cases hsmall : sizeBits y < 0x3F400000
  · obtain ⟨hsine, hcosine⟩ := below_sin_cos_of_small hsmall
    exact ⟨hsine.mono (by omega), hcosine.mono (by omega)⟩
  have hcases := sinCos_of_isFinite hy.1
  generalize sin y = s, cos y = c at hcases ⊢
  cases hcases with
  | tiny htiny => exact absurd (UInt32.lt_trans htiny (by decide)) hsmall
  | small _ hsmall' => exact absurd hsmall' hsmall
  | moderate =>
    have hrest := Reduced.below_rest_moderate (below_widen hy (by omega)) hj
    exact ⟨(below_sineAt _ hrest (by omega)).mono (by omega),
      (below_sineAt _ hrest (by omega)).mono (by omega)⟩
  | large hlow => exact absurd h hlow

/-- Every finite angle has a finite sine and a finite cosine. -/
theorem below_sin_cos (h : IsFinite y) : Below 91 (sin y) ∧ Below 91 (cos y) := by
  by_cases hmoderate : sizeBits y < 0x42F00000
  · have hy : Below 7 y := below_of_sizeBits_lt hmoderate (by decide) (by norm_num)
    obtain ⟨hsine, hcosine⟩ := below_sin_cos_of_moderate hmoderate hy le_rfl
    exact ⟨hsine.mono (by norm_num), hcosine.mono (by norm_num)⟩
  have hcases := sinCos_of_isFinite h
  generalize sin y = s, cos y = c at hcases ⊢
  cases hcases with
  | tiny htiny => exact absurd (UInt32.lt_trans htiny (by decide)) hmoderate
  | small _ hsmall => exact absurd (UInt32.lt_trans hsmall (by decide)) hmoderate
  | moderate _ hmoderate' => exact absurd hmoderate' hmoderate
  | large _ r hr =>
    have hrest : Below 4 r.rest := hr ▸ Reduced.below_rest_large _
    have hturn : ∀ q, Below 91 (sineAt q r.rest) := fun q =>
      (below_sineAt q hrest (by norm_num)).mono (by norm_num)
    refine ⟨?_, hturn _⟩
    split_ifs
    · exact hturn _
    · exact hturn _

end Arbor.Number
