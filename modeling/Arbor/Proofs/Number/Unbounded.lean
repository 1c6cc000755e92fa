import Arbor.Number.Single
import Arbor.Proofs.Number.Range

/-!
# Results that may be infinite

A square may pass the limit of the format, and so may a sum of squares; it is then positive
infinity.  `AtLeast b x` says that `x` is at least `b`, infinity included.  The predicate follows
products, sums and roots, and it ends where a finite number comes out again: the reciprocal
(`within_reciprocal`) and the smaller of two numbers (`isFinite_least`).  At the very limit a small
summand does not make a finite number infinite (`isFinite_add`), and a finite product has finite
factors (`isFinite_of_mul`).
-/

namespace Arbor.Number

open Float.Model (UnpackedFloat)
open Float.Model.UnpackedFloat

/-- Finite and at least `b`, or positive infinity. -/
def AtLeast (b : ℝ) (x : Float32) : Prop :=
  (IsFinite x ∧ b ≤ val x) ∨ unpacked x = .infinity .positive

variable {b c : ℝ} {x y : Float32}

lemma atLeast_of_rounds {z : Float32} {u : UnpackedFloat} {r : ℝ}
    (hz : Packed.pattern z = pack .binary32 u) (hu : Rounds .binary32 r u)
    (hb : OnGrid .binary32 b) (h0 : 0 ≤ b) (hr : b ≤ r) : AtLeast b z := by
  have hle : b ≤ rounded .binary32 r := hb.le_rounded hr
  by_cases hlimit : |rounded .binary32 r| < limit .binary32
  · obtain ⟨hfinite, hval⟩ := finite_of_rounds (α := Float32) hz hu hlimit
    exact .inl ⟨hfinite, hle.trans_eq hval.symm⟩
  · obtain ⟨s, hs, hsign⟩ := infinite_of_rounds (α := Float32) hz hu (not_lt.mp hlimit)
    rw [hsign (h0.trans hle)] at hs
    exact .inr hs

lemma atLeast_mul (hx : IsFinite x) (hy : IsFinite y) (hb : OnGrid .binary32 b) (h0 : 0 ≤ b)
    (h : b ≤ val x * val y) : AtLeast b (x * y) :=
  atLeast_of_rounds (Packed.pattern_mul x y)
    (rounds_mul (canonical_unpacked x) (canonical_unpacked y) hx hy) hb h0 h

lemma AtLeast.add (hx : AtLeast b x) (hy : AtLeast c y) (hb : OnGrid .binary32 (b + c))
    (h0 : 0 ≤ b + c) : AtLeast (b + c) (x + y) := by
  rcases hx with ⟨hx, hbx⟩ | hx
  · rcases hy with ⟨hy, hcy⟩ | hy
    · exact atLeast_of_rounds (Packed.pattern_add x y)
        (rounds_add (canonical_unpacked x) (canonical_unpacked y) hx hy) hb h0
        (add_le_add hbx hcy)
    · right
      have hsum : UnpackedFloat.add .binary32 (unpacked x) (.infinity .positive) =
          .infinity .positive := by
        obtain ⟨s, hu⟩ | ⟨s, m, e, hm, hu⟩ := hx.unpacked_cases <;> rw [hu] <;> rfl
      rw [unpacked_add, hy, hsum, unpack_pack_infinity]
  · right
    have hsum : UnpackedFloat.add .binary32 (.infinity .positive) (unpacked y) =
        .infinity .positive := by
      rcases hy with ⟨hy, -⟩ | hy
      · obtain ⟨s, hu⟩ | ⟨s, m, e, hm, hu⟩ := hy.unpacked_cases <;> rw [hu] <;> rfl
      · rw [hy]
        rfl
    rw [unpacked_add, hx, hsum, unpack_pack_infinity]

/-- A positive factor. -/
lemma AtLeast.mul (hx : AtLeast 0 x) (hy : IsFinite y) (hpos : 0 < val y) :
    AtLeast 0 (x * y) := by
  rcases hx with ⟨hx, h0⟩ | hx
  · exact atLeast_mul hx hy held_zero.1 le_rfl (mul_nonneg h0 hpos.le)
  · right
    have hproduct : UnpackedFloat.mul .binary32 (.infinity .positive) (unpacked y) =
        .infinity .positive := by
      rw [val] at hpos
      obtain ⟨s, hu⟩ | ⟨s, m, e, hm, hu⟩ := hy.unpacked_cases
      · rw [hu, value_zero] at hpos
        exact absurd hpos (lt_irrefl 0)
      · rw [hu] at hpos ⊢
        cases s with
        | positive => rfl
        | negative =>
          rw [value_negative] at hpos
          linarith [mul_zpow_pos hm e]
    rw [unpacked_mul, hx, hproduct, unpack_pack_infinity]

lemma AtLeast.sqrt (hx : AtLeast b x) (hc : OnGrid .binary32 c) (h0 : 0 ≤ c) (h : c ^ 2 ≤ b) :
    AtLeast c x.sqrt := by
  rcases hx with ⟨hx, hbx⟩ | hx
  · have hval : c ^ 2 ≤ val x := h.trans hbx
    have hrounds := rounds_sqrt (f := .binary32) ((sq_nonneg c).trans hval) hx
    exact atLeast_of_rounds rfl hrounds hc h0 (Real.le_sqrt_of_sq_le hval)
  · right
    have hroot : UnpackedFloat.sqrt .binary32 (.infinity .positive) = .infinity .positive := rfl
    rw [unpacked_sqrt, hx, hroot, unpack_pack_infinity]

/-- The reciprocal of a number that is at least a power of two; infinity has the reciprocal
zero. -/
lemma within_reciprocal {j : ℤ} (hj : -127 ≤ j) (hj' : j ≤ 149) (hx : AtLeast (2 ^ j) x) :
    Within 0 (2 ^ (-j)) (1 / x) := by
  have hpos : (0 : ℝ) < 2 ^ j := by positivity
  have hheld : Held Float32 (2 ^ (-j)) := held_zpow (by omega) (by omega)
  rcases hx with ⟨hx, hle⟩ | hx
  · have hval : 0 < val x := hpos.trans_le hle
    apply within_div held_zero hheld below_one.1 hx hval.ne'
    · rw [val_one]
      positivity
    · rw [val_one, zpow_neg, one_div]
      exact inv_anti₀ hpos hle
  · obtain ⟨s, hs⟩ : ∃ s, unpacked (1 / x) = .zero s := by
      have hone : IsFinite (1 : Float32) := below_one.1
      rw [unpacked_div, hx]
      obtain ⟨s, hu⟩ | ⟨s, m, e, hm, hu⟩ := hone.unpacked_cases <;> rw [hu] <;>
        exact ⟨_, unpack_pack_zero _⟩
    rw [Within, IsFinite, val, hs]
    refine ⟨rfl, le_rfl, ?_⟩
    rw [value_zero]
    positivity

/-- Positive infinity is above all finite numbers. -/
lemma lt_of_infinity (hx : unpacked x = .infinity .positive) (hy : IsFinite y) : y < x := by
  rw [Packed.lt_iff]
  show (unpacked y).lt (unpacked x) = true
  obtain ⟨s, hu⟩ | ⟨s, m, e, hm, hu⟩ := hy.unpacked_cases
  · rw [hx, hu]
    rfl
  · rw [hx, hu]
    cases s <;> rfl

lemma not_le_of_infinity (hx : unpacked x = .infinity .positive) (hy : IsFinite y) : ¬ x ≤ y := by
  rw [Packed.le_iff]
  show ¬ (unpacked x).le (unpacked y) = true
  obtain ⟨s, hu⟩ | ⟨s, m, e, hm, hu⟩ := hy.unpacked_cases
  · rw [hx, hu]
    exact Bool.false_ne_true
  · rw [hx, hu]
    cases s <;> exact Bool.false_ne_true

lemma zero_lt_of_atLeast (hb : 0 < b) (hx : AtLeast b x) : 0 < x := by
  rcases hx with ⟨hx, hle⟩ | hx
  · rw [lt_iff_val_lt below_zero.1 hx, val_zero]
    exact hb.trans_le hle
  · exact lt_of_infinity hx below_zero.1

/-- A finite number from above is above the bound too. -/
lemma AtLeast.le_val (hx : AtLeast b x) (hy : IsFinite y) (h : x ≤ y) : b ≤ val y := by
  rcases hx with ⟨hx, hle⟩ | hx
  · exact hle.trans ((le_iff_val_le hx hy).mp h)
  · exact absurd h (not_le_of_infinity hx hy)

/-- The smallest positive number. -/
lemma zpow_le_val_of_pos (hx : IsFinite x) (h : 0 < val x) : 2 ^ (-149 : ℤ) ≤ val x := by
  have hleast : magnitude .binary32 1 = 2 ^ (-149 : ℤ) := by
    norm_num [magnitude_binary32]
  have hval := abs_val_single hx
  rw [abs_of_pos h] at hval
  rw [hval, ← hleast]
  apply magnitude_strictMono.monotone
  by_contra hzero
  have hsize : (x.toBits &&& 0x7FFFFFFF).toNat = 0 := by omega
  rw [hsize, magnitude_zero] at hval
  exact h.ne' hval

/-- Of an unbounded number and a finite one the smaller one is finite. -/
lemma isFinite_least (hx : AtLeast b x) (hy : IsFinite y) : IsFinite (least x y) := by
  rcases hx with ⟨hx, -⟩ | hx
  · unfold least
    split_ifs
    · exact hy
    · exact hy
    · exact hx
  · unfold least
    rw [if_pos (lt_of_infinity hx hy), ite_self]
    exact hy

/-! ## The limit -/

/-- The largest finite number. -/
lemma abs_val_le_largest (hx : IsFinite x) : |val x| ≤ 2 ^ 128 - 2 ^ 104 := by
  have hsize := isFinite_iff_toNat_lt.mp hx
  have hlargest : magnitude .binary32 0x7F7FFFFF = 2 ^ 128 - 2 ^ 104 := by
    norm_num [magnitude_binary32]
  rw [abs_val_single hx, ← hlargest]
  exact magnitude_strictMono.monotone (by omega)

/-- A summand that is less than half of the last unit does not pass the limit. -/
lemma isFinite_add {k : ℕ} (hx : IsFinite x) (hy : Below k y) (hk : k < 103) :
    IsFinite (x + y) := by
  have hlargest := abs_val_le_largest hx
  have hsmall : (2 : ℝ) ^ k ≤ 2 ^ 102 := pow_le_pow_right₀ (by norm_num) (by omega)
  have hsum : |val x + val y| ≤ 2 ^ 128 - 2 ^ 104 + 2 ^ 102 :=
    (abs_add_le _ _).trans (add_le_add hlargest (hy.2.trans hsmall))
  have hunit := unitExponent_le (f := .binary32) (x := val x + val y) (n := 127)
    (hsum.trans_lt (by norm_num)) (by decide)
  have herror := abs_rounded_sub_le .binary32 (val x + val y)
  have hpow : (2 : ℝ) ^ unitExponent .binary32 (val x + val y) ≤ 2 ^ (104 : ℤ) :=
    zpow_le_zpow_right₀ (by norm_num) hunit
  refine (finite_add hx hy.1 ?_).1
  show |rounded .binary32 (val x + val y)| < 2 ^ 128
  have htriangle : |rounded .binary32 (val x + val y)| ≤
      |rounded .binary32 (val x + val y) - (val x + val y)| + |val x + val y| := by
    have h := abs_add_le (rounded .binary32 (val x + val y) - (val x + val y)) (val x + val y)
    rwa [sub_add_cancel] at h
  norm_num at hpow hsum ⊢
  linarith

/-- A sum moves from its first summand by the second one and half of a unit at most. -/
lemma abs_val_add_sub_le {m : ℕ} (hx : IsFinite x) (hy : IsFinite y) (hm : m ≤ 103)
    (h : |val x + val y| < 2 ^ (m + 24)) : |val (x + y) - val x| ≤ |val y| + 2 ^ m / 2 := by
  have hsum := (finite_add hx hy (abs_rounded_lt_of_abs_le (n := m + 24)
    (by change m + 24 < 128; omega) h.le)).2
  have hunit := unitExponent_le (f := .binary32) (n := m + 23) h
    (by change (-149 : ℤ) ≤ ((m + 23 : ℕ) : ℤ) + 1 - 24; push_cast; omega)
  have herror := abs_rounded_sub_le .binary32 (val x + val y)
  have hpow : (2 : ℝ) ^ unitExponent .binary32 (val x + val y) ≤ 2 ^ m := by
    rw [← zpow_natCast]
    refine zpow_le_zpow_right₀ (by norm_num) (hunit.trans ?_)
    show ((m + 23 : ℕ) : ℤ) + 1 - 24 ≤ m
    push_cast
    omega
  have hsplit : rounded (formatOf Float32) (val x + val y) - val x =
      (rounded (formatOf Float32) (val x + val y) - (val x + val y)) + val y := by ring
  rw [hsum, hsplit]
  refine (abs_add_le _ _).trans ?_
  have herror' : |rounded (formatOf Float32) (val x + val y) - (val x + val y)| ≤ 2 ^ m / 2 :=
    herror.trans (by linarith)
  linarith

/-- A factor up to one does not enlarge. -/
lemma within_shrink (hx : IsFinite x) (h0 : 0 ≤ val x) (hy : Within 0 1 y) :
    Within 0 (val x) (x * y) := by
  have hproduct : 0 ≤ val x * val y := mul_nonneg h0 hy.2.1
  have hle : rounded (formatOf Float32) (val x * val y) ≤ val x :=
    (rounded_mono _ (mul_le_of_le_one_right h0 hy.2.2)).trans_eq hx.rounded_val
  have hnonneg := rounded_nonneg (formatOf Float32) hproduct
  obtain ⟨hfinite, hval⟩ := finite_mul (α := Float32) hx hy.1 (by
    rw [abs_of_nonneg hnonneg]
    exact hle.trans_lt (lt_of_abs_lt hx.abs_val_lt))
  rw [Within, hval]
  exact ⟨hfinite, hnonneg, hle⟩

/-! ## Factors of finite products -/

/-- A finite product has finite factors. -/
lemma isFinite_of_mul (h : IsFinite (x * y)) : IsFinite x := by
  have hinfinity : ∀ s, (unpack .binary32 (pack .binary32 (.infinity s))).isFinite = false := fun s => by
    rw [unpack_pack_infinity]
    rfl
  have hnan : (unpack .binary32 (pack .binary32 .notANumber)).isFinite = false := by decide
  rw [IsFinite, unpacked_mul] at h
  rw [IsFinite]
  generalize unpacked y = v at h
  cases hu : unpacked x with
  | finite | zero => rfl
  | notANumber =>
    rw [hu] at h
    have hproduct : UnpackedFloat.mul .binary32 .notANumber v = .notANumber := by cases v <;> rfl
    rw [hproduct, hnan] at h
    cases h
  | infinity s =>
    rw [hu] at h
    have hproduct : UnpackedFloat.mul .binary32 (.infinity s) v = .notANumber ∨
        ∃ t, UnpackedFloat.mul .binary32 (.infinity s) v = .infinity t := by
      cases v with
      | zero | notANumber => exact .inl rfl
      | finite | infinity => exact .inr ⟨_, rfl⟩
    obtain hproduct | ⟨t, hproduct⟩ := hproduct
    · rw [hproduct, hnan] at h
      cases h
    · rw [hproduct, hinfinity] at h
      cases h

/-! ## Squares -/

lemma AtLeast.add_zero (hx : AtLeast 0 x) (hy : AtLeast 0 y) : AtLeast 0 (x + y) := by
  have hzero : (0 : ℝ) + 0 = 0 := zero_add 0
  have h := hx.add hy (by rw [hzero]; exact held_zero.1) hzero.ge
  rwa [hzero] at h

lemma atLeast_square_zero (hx : IsFinite x) : AtLeast 0 (x * x) :=
  atLeast_mul hx hx held_zero.1 le_rfl (mul_self_nonneg _)

/-- The square of a power of two is not lost down to `2^-148`. -/
lemma atLeast_square {j : ℤ} (hj : -74 ≤ j) (hx : IsFinite x) (h : 2 ^ j ≤ |val x|) :
    AtLeast (2 ^ (2 * j)) (x * x) := by
  have hsquare : (2 : ℝ) ^ (2 * j) = 2 ^ j * 2 ^ j := by
    rw [two_mul, zpow_add₀ (by norm_num)]
  apply atLeast_mul hx hx (onGrid_zpow (by show (-149 : ℤ) ≤ 2 * j; omega)) (by positivity)
  rw [hsquare, ← abs_mul_abs_self (val x)]
  exact mul_le_mul h h (by positivity) (abs_nonneg _)

end Arbor.Number
