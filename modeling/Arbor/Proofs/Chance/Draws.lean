import Arbor.Chance.Seeded
import Arbor.Proofs.Number.Range

/-!
# Draws from ranges

Every range of moderate numbers has a draw, and a draw from a range that is not empty lies between
its ends (`exists_draw`).  The upper end is the delicate one: the width is lowered until the largest
fraction of it stays in the range, so the rounding of a smaller fraction does too.
-/

namespace Arbor.Chance

open Number

/-! ## Fractions -/

lemma magnitude_fraction_high : magnitude .binary32 0x3FFFFFFF = 2 - 1 / 2 ^ 23 := by
  norm_num [magnitude_binary32]

/-- The fraction bits of a word with the exponent of one. -/
lemma toNat_fractionBits (w : UInt32) :
    ((w >>> 9) ||| 0x3F800000).toNat = 0x3F800000 + w.toNat / 2 ^ 9 := by
  have hword : w.toNat / 2 ^ 9 < 2 ^ 23 := by
    rw [Nat.div_lt_iff_lt_mul (by norm_num)]
    exact w.toNat_lt
  have hexponent : (0x3F800000 : UInt32).toNat = 2 ^ 23 * 127 := by decide
  have hshift : (w >>> 9).toNat = w.toNat / 2 ^ 9 := by
    rw [UInt32.toNat_shiftRight, Nat.shiftRight_eq_div_pow]
    rfl
  rw [UInt32.toNat_or, hshift, hexponent, Nat.or_comm, ← Nat.two_pow_add_eq_or_of_lt hword]

lemma isFinite_largestFraction : IsFinite largestFraction :=
  isFinite_iff.mp (by decide)

lemma val_largestFraction : val largestFraction = 1 - 1 / 2 ^ 23 := by
  rw [largestFraction, val_ofBits_of_lt (by decide)]
  simp only [UInt32.reduceToNat]
  norm_num [magnitude_binary32]

lemma within_fraction (w : UInt32) : Within 0 (val largestFraction) (fraction w) := by
  have hbits := toNat_fractionBits w
  have hword : w.toNat / 2 ^ 9 < 2 ^ 23 := by
    rw [Nat.div_lt_iff_lt_mul (by norm_num)]
    exact w.toNat_lt
  have hval := val_ofBits_of_lt (n := (w >>> 9) ||| 0x3F800000) (by rw [hbits]; omega)
  have hlow : magnitude .binary32 0x3F800000 ≤
      magnitude .binary32 ((w >>> 9) ||| 0x3F800000).toNat :=
    magnitude_strictMono.monotone (by omega)
  have hhigh : magnitude .binary32 ((w >>> 9) ||| 0x3F800000).toNat ≤
      magnitude .binary32 0x3FFFFFFF :=
    magnitude_strictMono.monotone (by omega)
  rw [magnitude_one, ← hval] at hlow
  rw [magnitude_fraction_high, ← hval] at hhigh
  have hfinite : IsFinite (Float32.ofBits ((w >>> 9) ||| 0x3F800000)) :=
    (below_ofBits (k := 1) (by norm_num) (by rw [hbits]; omega)).1
  rw [val_largestFraction]
  apply within_sub held_zero
    (held_dyadic (2 ^ 23 - 1) 23 (by norm_num) (by norm_num) (by norm_num)) hfinite below_one.1
  · rw [val_one]
    linarith
  · rw [val_one]
    linarith

/-! ## Widths -/

section Width

variable {lo hi scale : Float32} {k : ℕ}

/-- A width of zero fits every range that is not empty. -/
lemma not_lt_of_val_eq_zero (hlo : IsFinite lo) (hhi : IsFinite hi) (h : val lo ≤ val hi)
    (hfinite : IsFinite scale) (hscale : val scale = 0) :
    ¬ hi < scale * largestFraction + lo := by
  obtain ⟨hproduct, hlow, hhigh⟩ : Within 0 0 (scale * largestFraction) := by
    apply within_mul held_zero held_zero hfinite isFinite_largestFraction <;> simp [hscale]
  have hsum : val (scale * largestFraction) + val lo = val lo := by linarith
  obtain ⟨hresult, heq⟩ := finite_add hproduct hlo (by
    rw [hsum, hlo.rounded_val]
    exact hlo.abs_val_lt)
  rw [lt_iff_val_lt hhi hresult, heq, hsum, hlo.rounded_val]
  exact not_lt.mpr h

lemma finite_of_toNat_lt {x : Float32} (h : x.toBits.toNat < 0x7F800000) :
    IsFinite x ∧ val x = magnitude .binary32 x.toBits.toNat := by
  have hfinite : IsFinite x := by
    rw [isFinite_iff_toNat_lt, toNat_and_single]
    exact (Nat.mod_le _ _).trans_lt h
  exact ⟨hfinite, val_of_lt hfinite (by omega)⟩

lemma not_lt_of_toBits_eq_zero (hlo : IsFinite lo) (hhi : IsFinite hi) (h : val lo ≤ val hi)
    (hscale : scale.toBits.toNat = 0) : ¬ hi < scale * largestFraction + lo := by
  obtain ⟨hfinite, hval⟩ := finite_of_toNat_lt (x := scale) (by omega)
  rw [hscale, magnitude_zero] at hval
  exact not_lt_of_val_eq_zero hlo hhi h hfinite hval

lemma fitScale_of_not_lt (fuel : ℕ) (h : ¬ hi < scale * largestFraction + lo) :
    fitScale lo hi fuel scale = scale := by
  cases fuel with
  | zero => rfl
  | succ fuel => rw [fitScale, if_neg h]

/-- The descent ends at a width that fits and that is not larger than the one it starts from. -/
lemma fitScale_fits (hlo : IsFinite lo) (hhi : IsFinite hi) (h : val lo ≤ val hi) (fuel : ℕ)
    (hfinite : scale.toBits.toNat < 0x7F800000) (hfuel : scale.toBits.toNat ≤ fuel) :
    (fitScale lo hi fuel scale).toBits.toNat ≤ scale.toBits.toNat ∧
      ¬ hi < fitScale lo hi fuel scale * largestFraction + lo := by
  induction fuel generalizing scale with
  | zero => exact ⟨le_rfl, not_lt_of_toBits_eq_zero hlo hhi h (Nat.le_zero.mp hfuel)⟩
  | succ fuel ih =>
    rw [fitScale]
    split_ifs with hlarge
    · have hpos : 1 ≤ scale.toBits.toNat := by
        by_contra hzero
        exact not_lt_of_toBits_eq_zero hlo hhi h (by omega) hlarge
      have hpred : (scale.toBits - 1).toNat = scale.toBits.toNat - 1 :=
        UInt32.toNat_sub_of_le _ _ (UInt32.le_iff_toNat_le.mpr hpos)
      have hbits : (Float32.ofBits (scale.toBits - 1)).toBits = scale.toBits - 1 :=
        toBits_ofBits (by omega)
      have hnext := @ih (Float32.ofBits (scale.toBits - 1))
        (by rw [hbits]; omega) (by rw [hbits]; omega)
      rw [hbits] at hnext
      exact ⟨by omega, hnext.2⟩
    · exact ⟨le_rfl, hlarge⟩

/-- The width before the descent. -/
lemma within_width (hlo : Below k lo) (hhi : Below k hi) (hk : k ≤ 100) (h : val lo ≤ val hi) :
    Within 0 (2 ^ (k + 2)) ((hi - lo) / largestFraction) := by
  have hdifference : Within 0 (2 ^ (k + 1)) (hi - lo) := by
    apply within_sub held_zero (held_two_pow (by change k + 1 < 128; omega)) hhi.1 hlo.1
    · linarith
    · have := abs_le.mp hlo.2
      have := abs_le.mp hhi.2
      rw [pow_succ]
      linarith
  have hpos : 0 < val largestFraction := by
    rw [val_largestFraction]
    norm_num
  apply within_div held_zero (held_two_pow (by change k + 2 < 128; omega)) hdifference.1
    isFinite_largestFraction hpos.ne'
  · exact div_nonneg hdifference.2.1 hpos.le
  · rw [div_le_iff₀ hpos, val_largestFraction, pow_succ]
    have := hdifference.2.2
    have hone : (0 : ℝ) < 2 ^ (k + 1) := by positivity
    norm_num
    linarith

lemma rangeScale_fits (hlo : Below k lo) (hhi : Below k hi) (hk : k ≤ 100) (h : val lo ≤ val hi) :
    Within 0 (2 ^ (k + 2)) (rangeScale lo hi) ∧
      ¬ hi < rangeScale lo hi * largestFraction + lo := by
  have hwidth := within_width hlo hhi hk h
  unfold rangeScale
  generalize (hi - lo) / largestFraction = width at hwidth ⊢
  rcases hwidth.2.1.eq_or_lt with hzero | hpos
  · have hfits := not_lt_of_val_eq_zero hlo.1 hhi.1 h hwidth.1 hzero.symm
    rw [fitScale_of_not_lt _ hfits]
    exact ⟨hwidth, hfits⟩
  · have hsign : width.toBits.toNat < 2 ^ 31 := by
      by_contra hge
      have hval := val_of_le hwidth.1 (not_lt.mp hge)
      have := magnitude_nonneg (f := .binary32) (width.toBits &&& 0x7FFFFFFF).toNat
      linarith
    have hbits : width.toBits.toNat < 0x7F800000 := by
      have hsize := isFinite_iff_toNat_lt.mp hwidth.1
      rwa [toNat_and_single, Nat.mod_eq_of_lt hsign] at hsize
    obtain ⟨hle, hfits⟩ := fitScale_fits hlo.1 hhi.1 h 0x7F800000 hbits hbits.le
    refine ⟨?_, hfits⟩
    generalize fitScale lo hi 0x7F800000 width = scale at hle ⊢
    obtain ⟨hfinite, hval⟩ := finite_of_toNat_lt (x := scale) (hle.trans_lt hbits)
    have hmono := magnitude_strictMono (f := .binary32).monotone hle
    rw [← hval, ← val_of_lt hwidth.1 hsign] at hmono
    refine ⟨hfinite, ?_, hmono.trans hwidth.2.2⟩
    rw [hval]
    exact magnitude_nonneg _

/-- A fraction of a width, before it is rounded. -/
lemma fraction_mul_le {y : ℝ} (hy0 : 0 ≤ y) (hy : y ≤ val largestFraction)
    (hscale : Within 0 (2 ^ (k + 2)) scale) :
    0 ≤ y * val scale ∧ y * val scale ≤ 2 ^ (k + 2) := by
  have hlargest : val largestFraction ≤ 1 := by
    rw [val_largestFraction]
    norm_num
  refine ⟨mul_nonneg hy0 hscale.2.1, ?_⟩
  calc y * val scale ≤ 1 * 2 ^ (k + 2) :=
        mul_le_mul (hy.trans hlargest) hscale.2.2 hscale.2.1 zero_le_one
    _ = 2 ^ (k + 2) := one_mul _

/-- The product of a smaller fraction is rounded to no more than that of the largest one. -/
lemma val_fraction_mul_le {x : Float32} (hk : k ≤ 100) (hx : Within 0 (val largestFraction) x)
    (hscale : Within 0 (2 ^ (k + 2)) scale) :
    Within 0 (2 ^ (k + 2)) (x * scale) ∧ Within 0 (2 ^ (k + 2)) (scale * largestFraction) ∧
      val (x * scale) ≤ val (scale * largestFraction) := by
  obtain ⟨hfinite, hx0, hx1⟩ := hx
  have hheld : Held Float32 (2 ^ (k + 2)) := held_two_pow (by change k + 2 < 128; omega)
  obtain ⟨hdraw0, hdraw1⟩ := fraction_mul_le hx0 hx1 hscale
  obtain ⟨hmost0, hmost1⟩ := fraction_mul_le (hx0.trans hx1) le_rfl hscale
  rw [mul_comm] at hmost0 hmost1
  refine ⟨within_mul held_zero hheld hfinite hscale.1 hdraw0 hdraw1,
    within_mul held_zero hheld hscale.1 isFinite_largestFraction hmost0 hmost1, ?_⟩
  rw [(finite_mul hfinite hscale.1 (abs_rounded_lt_limit held_zero hheld hdraw0 hdraw1)).2,
    (finite_mul hscale.1 isFinite_largestFraction
      (abs_rounded_lt_limit held_zero hheld hmost0 hmost1)).2, mul_comm (val scale)]
  exact rounded_mono _ (mul_le_mul_of_nonneg_right hx1 hscale.2.1)

/-- A part of a width and the lower end have a sum in range. -/
lemma finite_add_low {p : Float32} (hlo : Below k lo) (hk : k ≤ 100)
    (hp : Within 0 (2 ^ (k + 2)) p) :
    IsFinite (p + lo) ∧ val (p + lo) = rounded (formatOf Float32) (val p + val lo) := by
  refine finite_add hp.1 hlo.1 (abs_rounded_lt_of_abs_le (n := k + 3)
    (by change k + 3 < 128; omega) ?_)
  have hlow := abs_le.mp hlo.2
  have hpow : (2 : ℝ) ^ (k + 2) = 2 ^ k * 4 := by ring
  have hpow' : (2 : ℝ) ^ (k + 3) = 2 ^ k * 8 := by ring
  have hpos : (0 : ℝ) < 2 ^ k := by positivity
  rw [abs_le]
  constructor <;> linarith [hp.2.1, hp.2.2]

/-- A smaller fraction of a width that fits stays in the range. -/
lemma within_draw {x : Float32} (hlo : Below k lo) (hhi : Below k hi) (hk : k ≤ 100)
    (hx : Within 0 (val largestFraction) x) (hscale : Within 0 (2 ^ (k + 2)) scale)
    (hfits : ¬ hi < scale * largestFraction + lo) : Within (val lo) (val hi) (x * scale + lo) := by
  obtain ⟨hdraw, hmost, hle⟩ := val_fraction_mul_le hk hx hscale
  obtain ⟨hfinite, hval⟩ := finite_add_low hlo hk hdraw
  obtain ⟨hfinite', hval'⟩ := finite_add_low hlo hk hmost
  rw [lt_iff_val_lt hhi.1 hfinite', not_lt, hval'] at hfits
  refine ⟨hfinite, ?_, ?_⟩
  · rw [hval, ← hlo.1.rounded_val]
    apply rounded_mono
    rw [hlo.1.rounded_val]
    linarith [hdraw.2.1]
  · rw [hval]
    exact (rounded_mono _ (by linarith)).trans hfits

end Width

/-- A draw from a range that is not empty lies between its ends. -/
theorem Seeded.exists_draw {lo hi : Float32} {k : ℕ} (hlo : Below k lo) (hhi : Below k hi)
    (hk : k ≤ 100) (h : val lo ≤ val hi) (s : Seeded) :
    ∃ x s', s.draw? lo hi = some (x, s') ∧ Within (val lo) (val hi) x := by
  unfold draw?
  split_ifs with hempty hnan hwide
  · exact ⟨lo, s, rfl, hlo.1, le_rfl, h⟩
  · rw [hlo.1.isNaN_eq_false, hhi.1.isNaN_eq_false] at hnan
    simp at hnan
  · have hwidth := within_width hlo hhi hk h
    simp [isFinite_iff.mpr hwidth.1] at hwide
  · obtain ⟨hscale, hfits⟩ := rangeScale_fits hlo hhi hk h
    exact ⟨_, _, rfl, within_draw hlo hhi hk (within_fraction _) hscale hfits⟩

lemma Seeded.uniform_eq_of_draw? {s s' : Seeded} {lo hi x : Float32}
    (h : s.draw? lo hi = some (x, s')) : Source.uniform s lo hi = (x, s') := by
  show (s.draw? lo hi).getD (lo, s) = (x, s')
  rw [h, Option.getD_some]

lemma Seeded.within_uniform {lo hi : Float32} {k : ℕ} (hlo : Below k lo) (hhi : Below k hi)
    (hk : k ≤ 100) (h : val lo ≤ val hi) (s : Seeded) :
    Within (val lo) (val hi) (Source.uniform s lo hi).1 := by
  obtain ⟨x, s', hdraw, hx⟩ := s.exists_draw hlo hhi hk h
  rwa [uniform_eq_of_draw? hdraw]

/-! ## Ranges about zero -/

section Symmetric

variable {v : Float32} {k : ℕ} (hv : Within 0 (2 ^ k) v)

include hv

lemma val_neg_le : val (-v) ≤ val v := by
  rw [(finite_neg hv.1).2]
  linarith [hv.2.1]

lemma Seeded.abs_val_uniform_le (hk : k ≤ 100) (s : Seeded) :
    IsFinite (Source.uniform s (-v) v).1 ∧ |val (Source.uniform s (-v) v).1| ≤ val v := by
  have hbelow := below_of_within hv
  obtain ⟨hfinite, hlow, hhigh⟩ := s.within_uniform hbelow.neg hbelow hk (val_neg_le hv)
  rw [(finite_neg hv.1).2] at hlow
  exact ⟨hfinite, abs_le.mpr ⟨hlow, hhigh⟩⟩

lemma Seeded.below_uniform (hk : k ≤ 100) (s : Seeded) :
    Below k (Source.uniform s (-v) v).1 := by
  obtain ⟨hfinite, hle⟩ := s.abs_val_uniform_le hv hk
  exact ⟨hfinite, hle.trans hv.2.2⟩

end Symmetric

/-! ## Turns -/

lemma below_tau : Below 3 tau := below_ofBits (by norm_num) (by decide)

lemma val_tau_nonneg : 0 ≤ val tau := by
  rw [tau, val_ofBits_of_lt (by decide)]
  exact magnitude_nonneg _

lemma Seeded.below_uniform_tau (s : Seeded) : Below 3 (Source.uniform s 0 tau).1 := by
  obtain ⟨hfinite, hlow, hhigh⟩ := s.within_uniform (below_zero.mono (by norm_num)) below_tau
    (by norm_num) (val_zero.trans_le val_tau_nonneg)
  rw [val_zero] at hlow
  exact ⟨hfinite, (abs_of_nonneg hlow).trans_le (hhigh.trans (abs_le.mp below_tau.2).2)⟩

/-! ## Guarded sources -/

/-- A seeded source that is lost with the first range that has no draw. -/
structure Guarded where
  source : Option Seeded

namespace Guarded

/-- A source before any range without a draw. -/
def of (s : Seeded) : Guarded := ⟨some s⟩

/-- A lost source answers the lower ends. -/
instance : Source Guarded where
  uniform g lo hi :=
    match g.source.bind fun s => s.draw? lo hi with
    | some (x, s) => (x, of s)
    | none => (lo, ⟨none⟩)

lemma uniform_of {lo hi : Float32} {k : ℕ} (hlo : Below k lo) (hhi : Below k hi) (hk : k ≤ 100)
    (h : val lo ≤ val hi) (s : Seeded) :
    Source.uniform (of s) lo hi = Prod.map id of (Source.uniform s lo hi) := by
  obtain ⟨x, s', hdraw, -⟩ := s.exists_draw hlo hhi hk h
  have hguarded : ((of s).source.bind fun s => s.draw? lo hi) = some (x, s') := hdraw
  rw [Seeded.uniform_eq_of_draw? hdraw]
  simp only [Source.uniform, hguarded]
  rfl

lemma uniform_neg_of {v : Float32} {k : ℕ} (hv : Within 0 (2 ^ k) v) (hk : k ≤ 100) (s : Seeded) :
    Source.uniform (of s) (-v) v = Prod.map id of (Source.uniform s (-v) v) :=
  uniform_of (below_of_within hv).neg (below_of_within hv) hk (val_neg_le hv) s

lemma uniform_tau_of (s : Seeded) :
    Source.uniform (of s) 0 tau = Prod.map id of (Source.uniform s 0 tau) :=
  uniform_of (below_zero.mono (by norm_num)) below_tau (by norm_num)
    (val_zero.trans_le val_tau_nonneg) s

end Guarded

end Arbor.Chance
