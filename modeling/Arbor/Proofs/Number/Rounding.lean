import Mathlib.Algebra.Order.Archimedean.Real.Basic
import Mathlib.Algebra.Order.Field.Power
import Mathlib.Data.Int.Log
import Mathlib.Tactic.Linarith
import Mathlib.Tactic.Positivity
import Mathlib.Tactic.Ring

/-!
# Rounding of real numbers

A binary format has a unit at every real number: a power of two that depends on the leading power
of the number and is never below the smallest one of the format.  `rounded` takes the nearest
multiple of the unit, a tie to the even multiple.  It is monotone (`rounded_mono`), odd
(`rounded_neg`), and leaves the numbers of the grid alone (`OnGrid.rounded_eq`); so a bound that
lies on the grid is kept by rounding, which is how every range of a computation is found.

The format is the one of core's model of floating-point numbers, and nothing here depends on which.
-/

namespace Arbor.Number

/-- The bound that a literal `2` of the reals carries, as one constant for all definitions. -/
scoped instance (priority := high) two_atLeastTwo : Nat.AtLeastTwo 2 := ⟨le_rfl⟩

/-! ## The nearest integer -/

/-- The integer nearest to a real, a tie to the even one. -/
noncomputable def nearestEven (x : ℝ) : ℤ :=
  if Int.fract x < 1 / 2 then ⌊x⌋
  else if 1 / 2 < Int.fract x then ⌊x⌋ + 1
  else ⌊x⌋ + ⌊x⌋ % 2

lemma floor_le_nearestEven (x : ℝ) : ⌊x⌋ ≤ nearestEven x := by
  unfold nearestEven
  split_ifs <;> omega

lemma nearestEven_le_floor_add_one (x : ℝ) : nearestEven x ≤ ⌊x⌋ + 1 := by
  unfold nearestEven
  split_ifs <;> omega

@[simp] lemma nearestEven_intCast (n : ℤ) : nearestEven n = n := by
  simp [nearestEven]

lemma nearestEven_mono {x y : ℝ} (hxy : x ≤ y) : nearestEven x ≤ nearestEven y := by
  rcases (Int.floor_le_floor hxy).lt_or_eq with hlt | heq
  · calc nearestEven x ≤ ⌊x⌋ + 1 := nearestEven_le_floor_add_one x
      _ ≤ ⌊y⌋ := hlt
      _ ≤ nearestEven y := floor_le_nearestEven y
  · have hfract : Int.fract x ≤ Int.fract y := by
      rw [Int.fract, Int.fract, heq]
      linarith
    unfold nearestEven
    rw [heq]
    split_ifs <;> first | omega | (exfalso; linarith)

lemma abs_nearestEven_sub_le (x : ℝ) : |(nearestEven x : ℝ) - x| ≤ 1 / 2 := by
  have hx : x = ⌊x⌋ + Int.fract x := (Int.floor_add_fract x).symm
  have h0 := Int.fract_nonneg x
  have h1 := Int.fract_lt_one x
  unfold nearestEven
  split_ifs with hlow hhigh
  · rw [abs_le]
    constructor <;> linarith
  · push_cast
    rw [abs_le]
    constructor <;> linarith
  · -- At a tie the distance is one half on either side.
    have hhalf : Int.fract x = 1 / 2 := by linarith
    push_cast
    rcases Int.emod_two_eq_zero_or_one ⌊x⌋ with heven | hodd
    · rw [heven, abs_le]
      push_cast
      constructor <;> linarith
    · rw [hodd, abs_le]
      push_cast
      constructor <;> linarith

lemma nearestEven_neg (x : ℝ) : nearestEven (-x) = -nearestEven x := by
  by_cases hint : Int.fract x = 0
  · obtain ⟨n, hn⟩ : ∃ n : ℤ, x = n := ⟨⌊x⌋, by linarith [Int.floor_add_fract x]⟩
    rw [hn, ← Int.cast_neg, nearestEven_intCast, nearestEven_intCast]
  · have hfract : Int.fract (-x) = 1 - Int.fract x := Int.fract_neg hint
    have hfloor : ⌊-x⌋ = -⌊x⌋ - 1 := by
      have h : ((⌊-x⌋ : ℤ) : ℝ) = ((-⌊x⌋ - 1 : ℤ) : ℝ) := by
        push_cast
        linarith [Int.floor_add_fract (-x), Int.floor_add_fract x]
      exact_mod_cast h
    unfold nearestEven
    rw [hfract, hfloor]
    split_ifs <;> first | omega | (exfalso; linarith)

/-! ## The unit at a number -/

lemma le_log_of_zpow_le {n : ℤ} {x : ℝ} (h : (2 : ℝ) ^ n ≤ x) : n ≤ Int.log 2 x := by
  have hpos : 0 < x := lt_of_lt_of_le (by positivity) h
  refine (Int.zpow_le_iff_le_log (b := 2) (by norm_num) hpos).mp ?_
  exact_mod_cast h

lemma log_lt_of_lt_zpow {n : ℤ} {x : ℝ} (hx : 0 < x) (h : x < (2 : ℝ) ^ n) : Int.log 2 x < n := by
  refine (Int.lt_zpow_iff_log_lt (b := 2) (by norm_num) hx).mp ?_
  exact_mod_cast h

variable (f : Float.Model.Format)

lemma targetExponent_mono {n t : ℤ} (h : n ≤ t) : f.targetExponent n ≤ f.targetExponent t :=
  max_le_max_right _ (Int.sub_le_sub_right h _)

/-- The exponent of the unit in which a real is written: the leading power of the real lies one
place below the number of bits, but no unit is below the smallest one. -/
noncomputable def unitExponent (x : ℝ) : ℤ := f.targetExponent (Int.log 2 |x| + 1)

lemma two_le_mantissaBits : 2 ≤ f.mantissaBits := by
  have := f.hm
  unfold Float.Model.Format.mantissaBits
  omega

lemma minExponent_le_unitExponent (x : ℝ) : f.minExponent ≤ unitExponent f x :=
  le_max_right _ _

lemma log_sub_le_unitExponent (x : ℝ) :
    Int.log 2 |x| + 1 - f.mantissaBits ≤ unitExponent f x :=
  le_max_left _ _

lemma unitExponent_neg (x : ℝ) : unitExponent f (-x) = unitExponent f x := by
  rw [unitExponent, abs_neg, unitExponent]

lemma unitExponent_mono {x y : ℝ} (hx : 0 < |x|) (hxy : |x| ≤ |y|) :
    unitExponent f x ≤ unitExponent f y :=
  targetExponent_mono f (Int.add_le_add_right (Int.log_mono_right (b := 2) hx hxy) 1)

/-- A real has the unit of every power of two up to it. -/
lemma targetExponent_le_unitExponent {x : ℝ} {n : ℤ} (h : 2 ^ (n - 1) ≤ |x|) :
    f.targetExponent n ≤ unitExponent f x := by
  have hlog := le_log_of_zpow_le h
  exact targetExponent_mono f (by omega)

/-- A real below `2^p` multiples of a unit has no larger unit, where `p` is the number of bits. -/
lemma unitExponent_le_of_lt {x : ℝ} {t : ℤ} (hx : x ≠ 0) (ht : f.minExponent ≤ t)
    (h : |x| < 2 ^ (t + f.mantissaBits)) : unitExponent f x ≤ t := by
  have hlog := log_lt_of_lt_zpow (abs_pos.mpr hx) h
  exact max_le (by omega) ht

/-- A real is less than `2^p` of its units, where `p` is the number of bits. -/
lemma abs_lt_zpow_unitExponent {x : ℝ} : |x| < 2 ^ (unitExponent f x + f.mantissaBits) := by
  have hlog : Int.log 2 |x| + 1 ≤ unitExponent f x + f.mantissaBits := by
    have := log_sub_le_unitExponent f x
    omega
  calc |x| < (2 : ℝ) ^ (Int.log 2 |x| + 1) := by
        have := Int.lt_zpow_succ_log_self (b := 2) (by norm_num) |x|
        exact_mod_cast this
    _ ≤ 2 ^ (unitExponent f x + f.mantissaBits) :=
        zpow_le_zpow_right₀ (by norm_num) hlog

/-- Above the smallest unit, a real has all of its bits. -/
lemma zpow_unitExponent_le_abs {x : ℝ} (hx : x ≠ 0) (h : f.minExponent < unitExponent f x) :
    2 ^ (unitExponent f x + f.mantissaBits - 1) ≤ |x| := by
  have hlog : unitExponent f x + f.mantissaBits - 1 = Int.log 2 |x| := by
    have hmax : unitExponent f x = max (Int.log 2 |x| + 1 - f.mantissaBits) f.minExponent := rfl
    omega
  rw [hlog]
  exact_mod_cast Int.zpow_log_le_self (R := ℝ) (b := 2) (by norm_num) (abs_pos.mpr hx)

/-! ## Rounding -/

/-- The number of the format nearest to a real, as if there were no largest one. -/
noncomputable def rounded (x : ℝ) : ℝ :=
  nearestEven (x / 2 ^ unitExponent f x) * 2 ^ unitExponent f x

/-- In its own units a positive real is rounded to a full mantissa at most. -/
lemma nearestEven_div_unit_le {x : ℝ} (hx : 0 < x) :
    nearestEven (x / 2 ^ unitExponent f x) ≤ 2 ^ f.mantissaBits := by
  have hle : x / 2 ^ unitExponent f x ≤ ((2 ^ f.mantissaBits : ℤ) : ℝ) := by
    have h := abs_lt_zpow_unitExponent f (x := x)
    rw [abs_of_pos hx, zpow_add₀ (by norm_num), zpow_natCast] at h
    rw [div_le_iff₀ (by positivity)]
    push_cast
    linarith
  have h := nearestEven_mono hle
  rwa [nearestEven_intCast] at h

/-- Above the smallest unit the leading bit of the mantissa is set. -/
lemma le_nearestEven_div_unit {x : ℝ} (hx : 0 < x) (h : f.minExponent < unitExponent f x) :
    2 ^ (f.mantissaBits - 1) ≤ nearestEven (x / 2 ^ unitExponent f x) := by
  have hp := two_le_mantissaBits f
  have hpow : ((2 ^ (f.mantissaBits - 1) : ℤ) : ℝ) = 2 ^ ((f.mantissaBits : ℤ) - 1) := by
    rw [Int.cast_pow, Int.cast_ofNat, ← zpow_natCast]
    congr 1
    omega
  have hle : ((2 ^ (f.mantissaBits - 1) : ℤ) : ℝ) ≤ x / 2 ^ unitExponent f x := by
    have hlow := zpow_unitExponent_le_abs f hx.ne' h
    rw [abs_of_pos hx, add_sub_assoc, zpow_add₀ (by norm_num)] at hlow
    rwa [le_div_iff₀ (by positivity), mul_comm, hpow]
  have hnear := nearestEven_mono hle
  rwa [nearestEven_intCast] at hnear

/-- Rounding moves a real by half of its unit at most. -/
lemma abs_rounded_sub_le (x : ℝ) : |rounded f x - x| ≤ 2 ^ unitExponent f x / 2 := by
  have hpos : (0 : ℝ) < 2 ^ unitExponent f x := by positivity
  have hsplit : rounded f x - x =
      (nearestEven (x / 2 ^ unitExponent f x) - x / 2 ^ unitExponent f x) *
        2 ^ unitExponent f x := by
    rw [sub_mul, div_mul_cancel₀ _ hpos.ne', rounded]
  rw [hsplit, abs_mul, abs_of_pos hpos]
  have hhalf := abs_nearestEven_sub_le (x / 2 ^ unitExponent f x)
  calc _ ≤ 1 / 2 * (2 : ℝ) ^ unitExponent f x := mul_le_mul_of_nonneg_right hhalf hpos.le
    _ = 2 ^ unitExponent f x / 2 := by ring

/-- The unit of a real below a power of two, which is one or more. -/
lemma unitExponent_le {x : ℝ} {n : ℕ} (h : |x| < 2 ^ (n + 1))
    (hn : f.minExponent ≤ (n : ℤ) + 1 - f.mantissaBits) :
    unitExponent f x ≤ (n : ℤ) + 1 - f.mantissaBits := by
  rcases eq_or_ne x 0 with rfl | hx
  · rw [unitExponent, abs_zero, Int.log_zero_right]
    exact max_le (by omega) hn
  · refine unitExponent_le_of_lt f hx hn ?_
    rw [sub_add_cancel]
    exact_mod_cast h

lemma rounded_zero : rounded f 0 = 0 := by
  have h : nearestEven 0 = 0 := by exact_mod_cast nearestEven_intCast 0
  simp [rounded, h]

lemma rounded_neg (x : ℝ) : rounded f (-x) = -rounded f x := by
  rw [rounded, unitExponent_neg, neg_div, nearestEven_neg, rounded]
  push_cast
  ring

lemma rounded_le_of_le {x : ℝ} {n e : ℤ} (he : unitExponent f x ≤ e) (h : x ≤ n * 2 ^ e) :
    rounded f x ≤ n * 2 ^ e := by
  set u := unitExponent f x
  have hpos : (0 : ℝ) < 2 ^ u := by positivity
  -- In units of `x` the bound is an integer.
  have hbound : (n : ℝ) * 2 ^ e = ((n * 2 ^ (e - u).toNat : ℤ) : ℝ) * 2 ^ u := by
    have hsplit : (2 : ℝ) ^ e = 2 ^ (e - u).toNat * 2 ^ u := by
      rw [← zpow_natCast, ← zpow_add₀ (by norm_num)]
      congr 1
      omega
    push_cast
    rw [hsplit, mul_assoc]
  rw [hbound] at h ⊢
  rw [rounded]
  have hdiv : x / 2 ^ u ≤ ((n * 2 ^ (e - u).toNat : ℤ) : ℝ) := (div_le_iff₀ hpos).mpr h
  have hnear := nearestEven_mono hdiv
  rw [nearestEven_intCast] at hnear
  have hcast : ((nearestEven (x / 2 ^ u) : ℤ) : ℝ) ≤ ((n * 2 ^ (e - u).toNat : ℤ) : ℝ) := by
    exact_mod_cast hnear
  exact mul_le_mul_of_nonneg_right hcast hpos.le

lemma le_rounded_of_le {x : ℝ} {n e : ℤ} (he : unitExponent f x ≤ e) (h : n * 2 ^ e ≤ x) :
    n * 2 ^ e ≤ rounded f x := by
  have hneg : -x ≤ ((-n : ℤ) : ℝ) * 2 ^ e := by
    push_cast
    linarith
  have hle := rounded_le_of_le f (by rwa [unitExponent_neg]) hneg
  rw [rounded_neg] at hle
  push_cast at hle
  linarith

lemma rounded_nonneg {x : ℝ} (hx : 0 ≤ x) : 0 ≤ rounded f x := by
  have h := le_rounded_of_le f (n := 0) le_rfl (by simpa using hx)
  simpa using h

/-- Of two positive reals with different units, the leading power of the larger one lies between
them, and it is a multiple of either unit. -/
lemma rounded_mono_of_pos {x y : ℝ} (hx : 0 < x) (hxy : x ≤ y) : rounded f x ≤ rounded f y := by
  have hy : 0 < y := lt_of_lt_of_le hx hxy
  have hunits : unitExponent f x ≤ unitExponent f y := by
    apply unitExponent_mono
    · exact abs_pos.mpr hx.ne'
    · rwa [abs_of_pos hx, abs_of_pos hy]
  rcases hunits.lt_or_eq with hlt | heq
  · have hp := two_le_mantissaBits f
    have hbelow : x ≤ (1 : ℤ) * 2 ^ (unitExponent f y + f.mantissaBits - 1) := by
      have hx' := abs_lt_zpow_unitExponent f (x := x)
      have hpow : (2 : ℝ) ^ (unitExponent f x + f.mantissaBits) ≤
          2 ^ (unitExponent f y + f.mantissaBits - 1) :=
        zpow_le_zpow_right₀ (by norm_num) (by omega)
      rw [abs_of_pos hx] at hx'
      rw [Int.cast_one, one_mul]
      exact hx'.le.trans hpow
    have habove : (1 : ℤ) * 2 ^ (unitExponent f y + f.mantissaBits - 1) ≤ y := by
      have hy' := zpow_unitExponent_le_abs f hy.ne' ((minExponent_le_unitExponent f x).trans_lt hlt)
      rwa [abs_of_pos hy, ← one_mul ((2 : ℝ) ^ _), ← Int.cast_one] at hy'
    calc rounded f x ≤ (1 : ℤ) * 2 ^ (unitExponent f y + f.mantissaBits - 1) :=
          rounded_le_of_le f (by omega) hbelow
      _ ≤ rounded f y := le_rounded_of_le f (by omega) habove
  · rw [rounded, rounded, heq]
    have hdiv : x / 2 ^ unitExponent f y ≤ y / 2 ^ unitExponent f y := by gcongr
    have hcast : ((nearestEven (x / 2 ^ unitExponent f y) : ℤ) : ℝ) ≤
        (nearestEven (y / 2 ^ unitExponent f y) : ℤ) := by
      exact_mod_cast nearestEven_mono hdiv
    gcongr

/-- Rounding keeps the order. -/
theorem rounded_mono : Monotone (rounded f) := by
  intro x y hxy
  rcases lt_or_ge 0 x with hx | hx
  · exact rounded_mono_of_pos f hx hxy
  · have hx' : rounded f x ≤ 0 := by
      have := rounded_nonneg f (neg_nonneg.mpr hx)
      rw [rounded_neg] at this
      linarith
    rcases le_or_gt 0 y with hy | hy
    · exact hx'.trans (rounded_nonneg f hy)
    · have := rounded_mono_of_pos f (neg_pos.mpr hy) (neg_le_neg hxy)
      rw [rounded_neg, rounded_neg] at this
      linarith

/-! ## The grid -/

/-- The reals that a format without a largest number can hold. -/
def OnGrid (x : ℝ) : Prop :=
  ∃ m e : ℤ, |m| ≤ 2 ^ f.mantissaBits ∧ f.minExponent ≤ e ∧ x = m * 2 ^ e

variable {f}

/-- Rounding leaves the grid alone. -/
theorem OnGrid.rounded_eq {x : ℝ} (h : OnGrid f x) : rounded f x = x := by
  obtain ⟨m, e, hm, he, rfl⟩ := h
  have hp := two_le_mantissaBits f
  rcases eq_or_ne m 0 with rfl | hm0
  · simp [rounded_zero]
  -- It is enough that the number is a multiple of its unit.
  suffices h : ∃ n k : ℤ, unitExponent f (m * 2 ^ e) ≤ k ∧ (m : ℝ) * 2 ^ e = n * 2 ^ k by
    obtain ⟨n, k, hk, heq⟩ := h
    apply le_antisymm
    · calc rounded f (m * 2 ^ e) ≤ n * 2 ^ k := rounded_le_of_le f hk heq.le
        _ = m * 2 ^ e := heq.symm
    · calc (m : ℝ) * 2 ^ e = n * 2 ^ k := heq
        _ ≤ rounded f (m * 2 ^ e) := le_rounded_of_le f hk heq.ge
  have habs : |(m : ℝ) * 2 ^ e| = |(m : ℝ)| * 2 ^ e := by
    rw [abs_mul, abs_of_pos (by positivity : (0 : ℝ) < 2 ^ e)]
  have hmpos : 0 < |(m : ℝ)| := abs_pos.mpr (by exact_mod_cast hm0)
  rcases hm.lt_or_eq with hlt | heq
  · refine ⟨m, e, ?_, rfl⟩
    have hx : |(m : ℝ) * 2 ^ e| < 2 ^ (e + f.mantissaBits) := by
      rw [habs, zpow_add₀ (by norm_num), mul_comm, zpow_natCast]
      have hcast : |(m : ℝ)| < 2 ^ f.mantissaBits := by exact_mod_cast hlt
      gcongr
    exact unitExponent_le_of_lt f (mul_ne_zero (by exact_mod_cast hm0) (by positivity)) he hx
  · -- A full mantissa is one leading bit of the next unit.
    obtain ⟨s, hs⟩ : ∃ s : ℤ, m = s * 2 ^ f.mantissaBits := by
      rcases abs_eq (by positivity) |>.mp heq with h | h
      · exact ⟨1, by rw [h, one_mul]⟩
      · exact ⟨-1, by rw [h, neg_one_mul]⟩
    refine ⟨s * 2 ^ (f.mantissaBits - 1), e + 1, ?_, ?_⟩
    · have hx : |(m : ℝ) * 2 ^ e| = ((2 : ℕ) : ℝ) ^ (e + f.mantissaBits) := by
        rw [habs, ← Int.cast_abs, heq]
        push_cast
        rw [zpow_add₀ (by norm_num), zpow_natCast, mul_comm]
      rw [unitExponent, hx, Int.log_zpow (by norm_num)]
      unfold Float.Model.Format.targetExponent
      omega
    · rw [hs]
      push_cast
      obtain ⟨p, hp'⟩ : ∃ p, f.mantissaBits = p + 1 := ⟨f.mantissaBits - 1, by omega⟩
      rw [hp', zpow_add₀ (by norm_num), Nat.add_sub_cancel]
      ring

lemma OnGrid.neg {x : ℝ} (h : OnGrid f x) : OnGrid f (-x) := by
  obtain ⟨m, e, hm, he, rfl⟩ := h
  exact ⟨-m, e, by rwa [abs_neg], he, by push_cast; ring⟩

lemma onGrid_zpow {k : ℤ} (h : f.minExponent ≤ k) : OnGrid f (2 ^ k) :=
  ⟨1, k, by simpa using one_le_pow₀ (by norm_num), h, by simp⟩

lemma OnGrid.rounded_le {x b : ℝ} (hb : OnGrid f b) (h : x ≤ b) : rounded f x ≤ b :=
  (rounded_mono f h).trans_eq hb.rounded_eq

lemma OnGrid.le_rounded {x b : ℝ} (hb : OnGrid f b) (h : b ≤ x) : b ≤ rounded f x :=
  hb.rounded_eq.symm.trans_le (rounded_mono f h)

lemma OnGrid.le_abs_rounded {x b : ℝ} (hb : OnGrid f b) (h : b ≤ |x|) : b ≤ |rounded f x| := by
  rcases le_abs'.mp h with hneg | hpos
  · exact le_abs'.mpr (.inl (hb.neg.rounded_le hneg))
  · exact le_abs'.mpr (.inr (hb.le_rounded hpos))

end Arbor.Number
