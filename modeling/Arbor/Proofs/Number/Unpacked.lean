import Arbor.Proofs.Number.Rounding
import Mathlib.Analysis.Real.Sqrt

/-!
# The model's operations round

Core's model of floating-point numbers computes on mantissas and exponents, with two residual bits
behind a mantissa.  A mantissa with its residual bits stands for a real that is known up to its
place between two neighbours (`Represents`).  Shifting to the right keeps what it stands for, and
its rounded mantissa is the nearest integer.  From this each operation of the model is seen to
round the exact result (`Rounds`): the sum, the difference, the product, the quotient and the
square root.

All of it holds for every format, as long as no number is packed.
-/

namespace Arbor.Number

open Float.Model (UnpackedFloat totalExponent)
open Float.Model.UnpackedFloat

/-! ## Residual bits -/

/-- A mantissa with its residual bits stands for a real: the round bit is the first binary digit
behind the point, and the sticky bit says whether there are others. -/
def Represents (em : ExtendedMantissa) (t : ℝ) : Prop :=
  ∃ r : ℝ, 0 ≤ r ∧ r < 1 ∧ (em.stickyBit = true ↔ r ≠ 0) ∧
    t = em.mantissa + (em.roundBit.toNat + r) / 2

lemma Represents.mantissa_eq {em : ExtendedMantissa} {t : ℝ} (h : Represents em t) :
    (em.mantissa : ℤ) = ⌊t⌋ := by
  obtain ⟨r, h0, h1, -, rfl⟩ := h
  have hbit : (em.roundBit.toNat : ℝ) ≤ 1 := by exact_mod_cast em.roundBit.toNat_le
  have hbit0 : (0 : ℝ) ≤ em.roundBit.toNat := by positivity
  refine (Int.floor_eq_iff.mpr ?_).symm
  push_cast
  constructor <;> linarith

lemma Represents.shiftRightOne {em : ExtendedMantissa} {t : ℝ} (h : Represents em t) :
    Represents em.shiftRightOne (t / 2) := by
  obtain ⟨r, h0, h1, hsticky, rfl⟩ := h
  have hhalf : (em.mantissa : ℝ) = 2 * (em.mantissa / 2 : ℕ) + (em.mantissa % 2 : ℕ) := by
    exact_mod_cast (Nat.div_add_mod em.mantissa 2).symm
  have hbit : (em.mantissa % 2 != 0).toNat = em.mantissa % 2 := by
    rcases Nat.mod_two_eq_zero_or_one em.mantissa with h | h <;> rw [h] <;> rfl
  refine ⟨(em.roundBit.toNat + r) / 2, ?_, ?_, ?_, ?_⟩
  · positivity
  · have : (em.roundBit.toNat : ℝ) ≤ 1 := by exact_mod_cast em.roundBit.toNat_le
    linarith
  · simp only [ExtendedMantissa.shiftRightOne, Bool.or_eq_true, hsticky]
    cases em.roundBit with
    | false => simp
    | true =>
      have : (1 + r) / 2 ≠ 0 := by positivity
      simp [this]
  · simp only [ExtendedMantissa.shiftRightOne, hbit]
    rw [hhalf]
    ring

lemma Represents.shiftRight {em : ExtendedMantissa} {t : ℝ} (h : Represents em t) (n : ℕ) :
    Represents (em >>> n) (t / 2 ^ n) := by
  induction n with
  | zero =>
    rw [pow_zero, div_one]
    exact h
  | succ n ih =>
    have hstep := ih.shiftRightOne
    rw [div_div, ← pow_succ] at hstep
    exact hstep

/-- The rounded mantissa is the nearest integer. -/
lemma Represents.roundedMantissa_eq {em : ExtendedMantissa} {t : ℝ} (h : Represents em t) :
    (em.roundedMantissa : ℤ) = nearestEven t := by
  have hfloor := h.mantissa_eq
  obtain ⟨r, h0, h1, hsticky, ht⟩ := h
  have hfract : Int.fract t = (em.roundBit.toNat + r) / 2 := by
    rw [Int.fract, ← hfloor, ht]
    push_cast
    ring
  obtain ⟨m, round, sticky⟩ := em
  unfold nearestEven
  rw [hfract, ← hfloor]
  -- The two bits decide on which side of one half the rest lies.
  rcases round with _ | _ <;> rcases sticky with _ | _
  · have hr : r = 0 := by simpa using hsticky
    simp [hr, ExtendedMantissa.roundedMantissa, ExtendedMantissa.accuracy,
      Accuracy.roundToNearestEven]
  · rw [if_pos (by simp; linarith)]
    rfl
  · have hr : r = 0 := by simpa using hsticky
    simp [hr, ExtendedMantissa.roundedMantissa, ExtendedMantissa.accuracy,
      Accuracy.roundToNearestEven]
  · have hr : 0 < r := lt_of_le_of_ne h0 (Ne.symm (by simpa using hsticky))
    rw [if_neg (by simp; linarith), if_pos (by simp; linarith)]
    rfl

/-! ## Where a real lies between two mantissas -/

/-- What an accuracy says of the place of a real between a mantissa and the next one. -/
def Locates : Accuracy → ℕ → ℝ → Prop
  | .exact, m, t => t = m
  | .inexact .lt, m, t => (m : ℝ) < t ∧ t < m + 1 / 2
  | .inexact .eq, m, t => t = m + 1 / 2
  | .inexact .gt, m, t => (m : ℝ) + 1 / 2 < t ∧ t < m + 1

lemma Locates.represents {acc : Accuracy} {m : ℕ} {t : ℝ} (h : Locates acc m t) :
    Represents (.ofMantissaAndAccuracy m acc) t := by
  match acc, h with
  | .exact, h =>
    have ht : t = m := h
    exact ⟨0, le_rfl, one_pos, by simp [ExtendedMantissa.ofMantissaAndAccuracy],
      by simp [ExtendedMantissa.ofMantissaAndAccuracy, ht]⟩
  | .inexact .eq, h =>
    have ht : t = m + 1 / 2 := h
    exact ⟨0, le_rfl, one_pos, by simp [ExtendedMantissa.ofMantissaAndAccuracy],
      by simp [ExtendedMantissa.ofMantissaAndAccuracy, ht]⟩
  | .inexact .lt, ⟨hlow, hhigh⟩ =>
    have hpos : 0 < 2 * (t - m) := by linarith
    exact ⟨2 * (t - m), hpos.le, by linarith,
      by simp [ExtendedMantissa.ofMantissaAndAccuracy, hpos.ne'],
      by simp [ExtendedMantissa.ofMantissaAndAccuracy]⟩
  | .inexact .gt, ⟨hlow, hhigh⟩ =>
    have hpos : 0 < 2 * (t - m) - 1 := by linarith
    exact ⟨2 * (t - m) - 1, hpos.le, by linarith,
      by simp [ExtendedMantissa.ofMantissaAndAccuracy, hpos.ne'],
      by simp [ExtendedMantissa.ofMantissaAndAccuracy]⟩

lemma Locates.floor_eq {acc : Accuracy} {m : ℕ} {t : ℝ} (h : Locates acc m t) :
    (m : ℤ) = ⌊t⌋ := by
  have hm : (ExtendedMantissa.ofMantissaAndAccuracy m acc).mantissa = m := by
    unfold ExtendedMantissa.ofMantissaAndAccuracy
    split <;> rfl
  rw [← h.represents.mantissa_eq, hm]

/-- Twice a rest against the divisor is the fraction of the rest against a half. -/
lemma compare_two_mul_eq_cmp {rest den : ℕ} (h : 0 < den) :
    compare (2 * rest) den = cmp ((rest : ℝ) / den) (1 / 2) := by
  have hden : (0 : ℝ) < den := by exact_mod_cast h
  have hfraction : (rest : ℝ) / den - 1 / 2 = ((2 * rest : ℕ) - den) / (2 * den) := by
    push_cast
    field_simp
  cases hcmp : compare (2 * rest) den with
  | lt =>
    have hlt : ((2 * rest : ℕ) : ℝ) < den := by exact_mod_cast Nat.compare_eq_lt.mp hcmp
    refine ((cmp_eq_lt_iff _ _).mpr ?_).symm
    have := div_neg_of_neg_of_pos (sub_neg.mpr hlt) (mul_pos two_pos hden)
    linarith
  | eq =>
    have heq : ((2 * rest : ℕ) : ℝ) = den := by exact_mod_cast Nat.compare_eq_eq.mp hcmp
    rw [heq, sub_self, zero_div, sub_eq_zero] at hfraction
    exact ((cmp_eq_eq_iff _ _).mpr hfraction).symm
  | gt =>
    have hgt : (den : ℝ) < (2 * rest : ℕ) := by exact_mod_cast Nat.compare_eq_gt.mp hcmp
    refine ((cmp_eq_gt_iff _ _).mpr ?_).symm
    have := div_pos (sub_pos.mpr hgt) (mul_pos two_pos hden)
    linarith

lemma locates_accuracyOfFraction {num den : ℕ} (h : 0 < den) :
    Locates (accuracyOfFraction (num % den) den) (num / den) ((num : ℝ) / den) := by
  have hden : (0 : ℝ) < den := by exact_mod_cast h
  have hsplit : (num : ℝ) / den = (num / den : ℕ) + ((num % den : ℕ) : ℝ) / den := by
    have hnat : ((num / den : ℕ) : ℝ) * den + (num % den : ℕ) = num := by
      exact_mod_cast Nat.div_add_mod' num den
    rw [div_eq_iff hden.ne', add_mul, div_mul_cancel₀ _ hden.ne', hnat]
  have hrem : num % den < den := Nat.mod_lt _ h
  have hrem' : ((num % den : ℕ) : ℝ) / den < 1 := by
    rw [div_lt_one hden]
    exact_mod_cast hrem
  unfold accuracyOfFraction
  split_ifs with hzero
  · show _ = _
    rw [hsplit, hzero]
    simp
  · have hpos : 0 < ((num % den : ℕ) : ℝ) / den := by
      apply div_pos _ hden
      exact_mod_cast Nat.pos_of_ne_zero hzero
    rw [hsplit, compare_two_mul_eq_cmp h]
    cases hcmp : cmp (((num % den : ℕ) : ℝ) / den) (1 / 2) with
    | lt => exact ⟨by linarith, by linarith [(cmp_eq_lt_iff _ _).mp hcmp]⟩
    | eq =>
      rw [(cmp_eq_eq_iff _ _).mp hcmp]
      rfl
    | gt => exact ⟨by linarith [(cmp_eq_gt_iff _ _).mp hcmp], by linarith⟩

/-- The square root of an integer is never half way between two integers. -/
lemma locates_sqrt (n : ℕ) :
    Locates (if n - n.sqrt * n.sqrt = 0 then .exact
      else .inexact (if n - n.sqrt * n.sqrt ≤ n.sqrt then .lt else .gt)) n.sqrt (√(n : ℝ)) := by
  have hle : n.sqrt * n.sqrt ≤ n := Nat.sqrt_le n
  have hlt : n < (n.sqrt + 1) * (n.sqrt + 1) := Nat.lt_succ_sqrt n
  have hroot : (0 : ℝ) ≤ n.sqrt := by positivity
  split_ifs with hexact hbelow
  · have hn : (n : ℝ) = n.sqrt * n.sqrt := by exact_mod_cast (by omega : n = n.sqrt * n.sqrt)
    show √(n : ℝ) = n.sqrt
    rw [hn, Real.sqrt_mul_self hroot]
  · have hlow : ((n.sqrt * n.sqrt : ℕ) : ℝ) < n := by exact_mod_cast (by omega)
    have hhigh : (n : ℝ) ≤ (n.sqrt * n.sqrt + n.sqrt : ℕ) := by exact_mod_cast (by omega)
    push_cast at hlow hhigh
    refine ⟨Real.lt_sqrt_of_sq_lt (by linarith), ?_⟩
    rw [Real.sqrt_lt' (by linarith)]
    linarith
  · have hlow : ((n.sqrt * n.sqrt + n.sqrt + 1 : ℕ) : ℝ) ≤ n := by exact_mod_cast (by omega)
    have hhigh : (n : ℝ) < ((n.sqrt + 1) * (n.sqrt + 1) : ℕ) := by exact_mod_cast hlt
    push_cast at hlow hhigh
    refine ⟨Real.lt_sqrt_of_sq_lt (by linarith), ?_⟩
    rw [Real.sqrt_lt' (by linarith)]
    linarith

/-! ## Values -/

/-- The real that a finite unpacked number stands for; the others stand for zero. -/
noncomputable def value : UnpackedFloat → ℝ
  | .finite s m e _ => (s.apply m : ℤ) * 2 ^ e
  | _ => 0

/-- A finite number is written in the unit of its format: its mantissa has all bits, or the unit is
the smallest one. -/
def Canonical (f : Float.Model.Format) : UnpackedFloat → Prop
  | .finite _ m e _ =>
    m < 2 ^ f.mantissaBits ∧ f.minExponent ≤ e ∧
      (2 ^ (f.mantissaBits - 1) ≤ m ∨ e = f.minExponent)
  | _ => True

/-- A number is what a real rounds to, as if there were no largest number. -/
structure Rounds (f : Float.Model.Format) (x : ℝ) (u : UnpackedFloat) : Prop where
  isFinite : u.isFinite = true
  canonical : Canonical f u
  value_eq : value u = rounded f x

lemma sign_apply_eq_mul (s : Sign) (n : ℤ) : s.apply n = s.apply 1 * n := by
  cases s <;> simp [Sign.apply]

@[simp]
lemma value_zero (s : Sign) : value (.zero s) = 0 := rfl

lemma value_finite (s : Sign) (m : ℕ) (e : ℤ) (hm : 0 < m) :
    value (.finite s m e hm) = (s.apply 1 : ℤ) * (m * 2 ^ e) := by
  show ((s.apply m : ℤ) : ℝ) * 2 ^ e = _
  rw [sign_apply_eq_mul]
  push_cast
  ring

lemma sign_apply_neg (s : Sign) (n : ℤ) : (-s).apply n = -s.apply n := by
  cases s
  · exact (neg_neg n).symm
  · rfl

lemma value_neg (u : UnpackedFloat) : value u.neg = -value u := by
  match u with
  | .finite s m e _ =>
    show (((-s).apply m : ℤ) : ℝ) * 2 ^ e = -((s.apply m : ℤ) * 2 ^ e)
    rw [sign_apply_neg]
    push_cast
    ring
  | .infinity _ | .notANumber | .zero _ => exact neg_zero.symm

/-! ## Shifting to the unit -/

variable {f : Float.Model.Format}

lemma zpow_totalExponent_le {m : ℕ} (hm : 0 < m) (e : ℤ) :
    (2 : ℝ) ^ (totalExponent m e - 1) ≤ m * 2 ^ e := by
  have hlog : ((2 ^ m.log2 : ℕ) : ℝ) ≤ m := by exact_mod_cast Nat.log2_self_le hm.ne'
  have hsplit : (2 : ℝ) ^ (totalExponent m e - 1) = (2 ^ m.log2 : ℕ) * 2 ^ e := by
    push_cast
    rw [← zpow_natCast, ← zpow_add₀ (by norm_num), totalExponent]
    congr 1
    ring
  rw [hsplit]
  gcongr

lemma succ_mul_le_zpow_totalExponent (m : ℕ) (e : ℤ) :
    (m + 1 : ℝ) * 2 ^ e ≤ 2 ^ totalExponent m e := by
  have hlog : m + 1 ≤ 2 ^ (m.log2 + 1) := Nat.lt_log2_self
  have hlog' : (m + 1 : ℝ) ≤ (2 ^ (m.log2 + 1) : ℕ) := by exact_mod_cast hlog
  have hsplit : (2 : ℝ) ^ totalExponent m e = (2 ^ (m.log2 + 1) : ℕ) * 2 ^ e := by
    push_cast
    rw [← zpow_natCast, ← zpow_add₀ (by norm_num), totalExponent]
    congr 1
  rw [hsplit]
  gcongr

lemma totalExponent_le_log {m : ℕ} {e : ℤ} {x : ℝ} (hm : 0 < m) (hx : (m : ℝ) * 2 ^ e ≤ x) :
    totalExponent m e ≤ Int.log 2 x + 1 := by
  have h := le_log_of_zpow_le ((zpow_totalExponent_le hm e).trans hx)
  omega

lemma log_lt_totalExponent {m : ℕ} {e : ℤ} {x : ℝ} (hpos : 0 < x)
    (hx : x < (m + 1 : ℝ) * 2 ^ e) : Int.log 2 x < totalExponent m e :=
  log_lt_of_lt_zpow hpos (hx.trans_le (succ_mul_le_zpow_totalExponent m e))

/-- The unit that the model computes from the mantissa is the unit of the real, provided that the
exponent is not above it. -/
lemma targetExponent_eq {m : ℕ} {e : ℤ} {x : ℝ} (hpos : 0 < x) (hm : (m : ℤ) = ⌊x / 2 ^ e⌋)
    (he : e ≤ unitExponent f x) :
    f.targetExponent (totalExponent m e) = unitExponent f x := by
  have hunit : (0 : ℝ) < 2 ^ e := by positivity
  obtain ⟨hlow, hhigh⟩ := Int.floor_eq_iff.mp hm.symm
  have hlt : x < (m + 1 : ℝ) * 2 ^ e := by
    rw [div_lt_iff₀ hunit] at hhigh
    exact_mod_cast hhigh
  have hlog := log_lt_totalExponent hpos hlt
  unfold unitExponent Float.Model.Format.targetExponent at he ⊢
  rw [abs_of_pos hpos] at he ⊢
  rcases Nat.eq_zero_or_pos m with rfl | hmpos
  · -- Below one unit of `e` the exponent can only be the smallest one.
    have hp := two_le_mantissaBits f
    have htotal : totalExponent 0 e = 1 + e := by simp [totalExponent]
    omega
  · have hle : (m : ℝ) * 2 ^ e ≤ x := by
      rw [le_div_iff₀ hunit] at hlow
      exact_mod_cast hlow
    have := totalExponent_le_log hmpos hle
    omega

lemma shiftToTargetExponent_eq (m : ℕ) (e : ℤ) (acc : Accuracy) :
    shiftToTargetExponent f m e acc =
      (ExtendedMantissa.ofMantissaAndAccuracy m acc >>>
          (f.targetExponent (totalExponent m e) - e).toNat,
        e + ((f.targetExponent (totalExponent m e) - e).toNat : ℤ)) := rfl

/-- A mantissa that rounding may have filled up is brought back into the format. -/
lemma exists_shiftToTargetExponent {n : ℕ} {u : ℤ} (hn : n ≤ 2 ^ f.mantissaBits)
    (hu : f.minExponent ≤ u) (hfull : 2 ^ (f.mantissaBits - 1) ≤ n ∨ u = f.minExponent) :
    ∃ m e, (shiftToTargetExponent f n u .exact).1.mantissa = m ∧
      (shiftToTargetExponent f n u .exact).2 = e ∧ (m : ℝ) * 2 ^ e = n * 2 ^ u ∧
        m < 2 ^ f.mantissaBits ∧ f.minExponent ≤ e ∧
          (2 ^ (f.mantissaBits - 1) ≤ m ∨ e = f.minExponent) := by
  have hp := two_le_mantissaBits f
  rw [shiftToTargetExponent_eq]
  rcases hn.lt_or_eq with hlt | rfl
  · have hshift : (f.targetExponent (totalExponent n u) - u).toNat = 0 := by
      have hlog : n.log2 < f.mantissaBits := by
        rcases Nat.eq_zero_or_pos n with rfl | hpos
        · rw [Nat.log2_zero]
          omega
        · exact (Nat.log2_lt hpos.ne').mpr hlt
      unfold Float.Model.Format.targetExponent totalExponent
      omega
    rw [hshift]
    exact ⟨n, u, rfl, by simp, rfl, hlt, hu, hfull⟩
  · have hshift : (f.targetExponent (totalExponent (2 ^ f.mantissaBits) u) - u).toNat = 1 := by
      unfold Float.Model.Format.targetExponent totalExponent
      rw [Nat.log2_two_pow]
      omega
    rw [hshift]
    obtain ⟨p, hp'⟩ : ∃ p, f.mantissaBits = p + 1 := ⟨f.mantissaBits - 1, by omega⟩
    have hhalf : 2 ^ f.mantissaBits / 2 = 2 ^ p := by
      rw [hp', pow_succ]
      exact Nat.mul_div_cancel _ two_pos
    refine ⟨2 ^ p, u + 1, hhalf, rfl, ?_, ?_, by omega, .inl ?_⟩
    · rw [hp', zpow_add₀ (by norm_num)]
      push_cast
      ring
    · exact Nat.pow_lt_pow_right (by norm_num) (by omega)
    · rw [hp', Nat.add_sub_cancel]

/-- The number with a sign, a mantissa and an exponent. -/
def ofMantissa (s : Sign) (m : ℕ) (e : ℤ) : UnpackedFloat :=
  if h : m = 0 then .zero s else .finite s m e (Nat.pos_of_ne_zero h)

lemma ofMantissa_zero (s : Sign) (e : ℤ) : ofMantissa s 0 e = .zero s := rfl

lemma ofMantissa_of_pos {s : Sign} {m : ℕ} {e : ℤ} (h : 0 < m) :
    ofMantissa s m e = .finite s m e h := dif_neg h.ne'

lemma isFinite_ofMantissa (s : Sign) (m : ℕ) (e : ℤ) : (ofMantissa s m e).isFinite = true := by
  rcases Nat.eq_zero_or_pos m with rfl | h
  · rfl
  · rw [ofMantissa_of_pos h]
    rfl

lemma canonical_ofMantissa {s : Sign} {m : ℕ} {e : ℤ} (h : m < 2 ^ f.mantissaBits ∧
    f.minExponent ≤ e ∧ (2 ^ (f.mantissaBits - 1) ≤ m ∨ e = f.minExponent)) :
    Canonical f (ofMantissa s m e) := by
  rcases Nat.eq_zero_or_pos m with rfl | hpos
  · trivial
  · rw [ofMantissa_of_pos hpos]
    exact h

lemma value_ofMantissa (s : Sign) (m : ℕ) (e : ℤ) :
    value (ofMantissa s m e) = (s.apply 1 : ℤ) * (m * 2 ^ e) := by
  rcases Nat.eq_zero_or_pos m with rfl | h
  · rw [ofMantissa_zero, value_zero, Nat.cast_zero, zero_mul, mul_zero]
  · rw [ofMantissa_of_pos h, value_finite]

/-- A mantissa is shifted twice, the second time because rounding may have filled it up. -/
lemma roundWithAccuracy_eq (s : Sign) (m : ℕ) (e : ℤ) (acc : Accuracy) :
    roundWithAccuracy f s m e acc =
      ofMantissa s
        (shiftToTargetExponent f (shiftToTargetExponent f m e acc).1.roundedMantissa
          (shiftToTargetExponent f m e acc).2 .exact).1.mantissa
        (shiftToTargetExponent f (shiftToTargetExponent f m e acc).1.roundedMantissa
          (shiftToTargetExponent f m e acc).2 .exact).2 := rfl

lemma rounded_sign_mul (s : Sign) (x : ℝ) :
    rounded f ((s.apply 1 : ℤ) * x) = (s.apply 1 : ℤ) * rounded f x := by
  cases s with
  | negative =>
    simp only [Sign.apply, Int.cast_neg, Int.cast_one, neg_one_mul]
    exact rounded_neg f x
  | positive => simp only [Sign.apply, Int.cast_one, one_mul]

/-- Rounding a mantissa whose distance to a positive real is known rounds the real. -/
theorem rounds_roundWithAccuracy {m : ℕ} {e : ℤ} {acc : Accuracy} {x : ℝ} (s : Sign)
    (hx : 0 < x) (hm : Locates acc m (x / 2 ^ e)) (he : e ≤ unitExponent f x) :
    Rounds f ((s.apply 1 : ℤ) * x) (roundWithAccuracy f s m e acc) := by
  set u := unitExponent f x with hu
  have htarget : f.targetExponent (totalExponent m e) = u := targetExponent_eq hx hm.floor_eq he
  -- The first shift leaves what the real is in its own units.
  have hfirst : shiftToTargetExponent f m e acc =
      (ExtendedMantissa.ofMantissaAndAccuracy m acc >>> (u - e).toNat, u) := by
    rw [shiftToTargetExponent_eq, htarget]
    refine Prod.ext rfl ?_
    show e + ((u - e).toNat : ℤ) = u
    omega
  have hrep : Represents (ExtendedMantissa.ofMantissaAndAccuracy m acc >>> (u - e).toNat)
      (x / 2 ^ u) := by
    have h := hm.represents.shiftRight (u - e).toNat
    have hpow : (2 : ℝ) ^ e * 2 ^ (u - e).toNat = 2 ^ u := by
      rw [← zpow_natCast, ← zpow_add₀ (by norm_num)]
      congr 1
      omega
    rwa [div_div, hpow] at h
  have hnear := hrep.roundedMantissa_eq
  set n := (ExtendedMantissa.ofMantissaAndAccuracy m acc >>> (u - e).toNat).roundedMantissa
  have hn : n ≤ 2 ^ f.mantissaBits := by
    have h := nearestEven_div_unit_le f hx
    rw [← hu, ← hnear] at h
    exact_mod_cast h
  have hfull : 2 ^ (f.mantissaBits - 1) ≤ n ∨ u = f.minExponent := by
    rcases (minExponent_le_unitExponent f x).lt_or_eq with hlt | heq
    · have h := le_nearestEven_div_unit f hx hlt
      rw [← hu, ← hnear] at h
      exact .inl (by exact_mod_cast h)
    · exact .inr heq.symm
  obtain ⟨m', e', hm', he', hvalue, hcanonical⟩ :=
    exists_shiftToTargetExponent hn (minExponent_le_unitExponent f x) hfull
  have hrounded : rounded f x = m' * 2 ^ e' := by
    rw [hvalue, rounded, ← hu, ← hnear]
    push_cast
    rfl
  rw [roundWithAccuracy_eq, hfirst, hm', he']
  refine ⟨isFinite_ofMantissa s m' e', canonical_ofMantissa hcanonical, ?_⟩
  rw [value_ofMantissa, rounded_sign_mul, hrounded]

/-! ## The operations -/

/-- A product of a mantissa and a power of two is rounded when its exponent is not above the
unit. -/
lemma rounds_of_exact {m : ℕ} {e : ℤ} {x : ℝ} (s : Sign) (hx : 0 < x)
    (hm : (m : ℝ) * 2 ^ e = x) (he : e ≤ unitExponent f x) :
    Rounds f ((s.apply 1 : ℤ) * x) (roundWithAccuracy f s m e .exact) := by
  refine rounds_roundWithAccuracy s hx ?_ he
  show x / 2 ^ e = m
  rw [← hm, mul_div_cancel_right₀]
  positivity

section DecreaseExponent

variable {m : ℕ} {e t : ℤ}

lemma decreaseExponent_def :
    decreaseExponent m e t = (m <<< (e - t).toNat, e - ((e - t).toNat : ℤ)) := rfl

lemma decreaseExponent_value :
    ((decreaseExponent m e t).1 : ℝ) * 2 ^ (decreaseExponent m e t).2 = m * 2 ^ e := by
  rw [decreaseExponent_def, Nat.shiftLeft_eq]
  push_cast
  rw [mul_assoc, ← zpow_natCast, ← zpow_add₀ (by norm_num)]
  congr 2
  ring

lemma decreaseExponent_le : (decreaseExponent m e t).2 ≤ t := by
  rw [decreaseExponent_def]
  dsimp only
  omega

lemma decreaseExponent_eq (h : t ≤ e) : (decreaseExponent m e t).2 = t := by
  rw [decreaseExponent_def]
  dsimp only
  omega

end DecreaseExponent

lemma rounds_round {m : ℕ} {e : ℤ} (s : Sign) (hm : 0 < m) :
    Rounds f ((s.apply 1 : ℤ) * (m * 2 ^ e)) (UnpackedFloat.round f s m e) := by
  have hm' : (0 : ℝ) < m := by exact_mod_cast hm
  have hx : (0 : ℝ) < m * 2 ^ e := by positivity
  have hunit : f.targetExponent (totalExponent m e) ≤ unitExponent f (m * 2 ^ e) := by
    apply targetExponent_le_unitExponent
    rw [abs_of_pos hx]
    exact zpow_totalExponent_le hm e
  exact rounds_of_exact s hx
    (decreaseExponent_value (t := f.targetExponent (totalExponent m e)))
    ((decreaseExponent_le (m := m)).trans hunit)

lemma rounds_zero (s : Sign) : Rounds f 0 (.zero s) := by
  refine ⟨rfl, trivial, ?_⟩
  rw [rounded_zero]
  rfl

lemma rounds_normalize (n : ℤ) (e : ℤ) (s : Sign) :
    Rounds f (n * 2 ^ e) (UnpackedFloat.normalize f n e s) := by
  unfold UnpackedFloat.normalize
  cases h : compare n 0 with
  | lt =>
    have hn : n < 0 := Int.compare_eq_lt.mp h
    have hround := rounds_round (f := f) (e := e) .negative (show 0 < (-n).toNat by omega)
    have hcast : (((-n).toNat : ℕ) : ℝ) = -n := by
      exact_mod_cast congrArg (Int.cast (R := ℝ)) (Int.toNat_of_nonneg (by omega : 0 ≤ -n))
    rw [hcast] at hround
    simpa [Sign.apply] using hround
  | eq =>
    have hn : n = 0 := Int.compare_eq_eq.mp h
    rw [hn, Int.cast_zero, zero_mul]
    exact rounds_zero s
  | gt =>
    have hn : 0 < n := Int.compare_eq_gt.mp h
    have hround := rounds_round (f := f) (e := e) .positive (show 0 < n.toNat by omega)
    have hcast : ((n.toNat : ℕ) : ℝ) = n := by
      exact_mod_cast congrArg (Int.cast (R := ℝ)) (Int.toNat_of_nonneg hn.le)
    rw [hcast] at hround
    simpa [Sign.apply] using hround

/-- A canonical number is on the grid, so it rounds to itself. -/
lemma Canonical.rounds {u : UnpackedFloat} (hu : Canonical f u) (hfinite : u.isFinite = true) :
    Rounds f (value u) u := by
  refine ⟨hfinite, hu, ?_⟩
  match u, hu with
  | .zero _, _ => exact (rounded_zero f).symm
  | .finite s m e _, hu =>
    refine (OnGrid.rounded_eq ⟨s.apply m, e, ?_, hu.2.1, rfl⟩).symm
    have hm : (m : ℤ) ≤ 2 ^ f.mantissaBits := by exact_mod_cast hu.1.le
    cases s <;> simpa [Sign.apply] using hm
  | .infinity _, _ | .notANumber, _ => cases hfinite

lemma Canonical.neg {u : UnpackedFloat} (hu : Canonical f u) : Canonical f u.neg := by
  match u, hu with
  | .finite _ _ _ _, hu => exact hu
  | .zero _, _ | .infinity _, _ | .notANumber, _ => trivial

lemma isFinite_neg (u : UnpackedFloat) : u.neg.isFinite = u.isFinite := by
  cases u <;> rfl

section Arithmetic

variable {u v : UnpackedFloat}

lemma sign_apply_decreaseExponent (s : Sign) (m : ℕ) {e t : ℤ} (h : t ≤ e) :
    ((s.apply (decreaseExponent m e t).1 : ℤ) : ℝ) * 2 ^ t = (s.apply m : ℤ) * 2 ^ e := by
  have hvalue := decreaseExponent_value (m := m) (e := e) (t := t)
  rw [decreaseExponent_eq h] at hvalue
  rw [sign_apply_eq_mul, sign_apply_eq_mul s m]
  push_cast
  rw [mul_assoc, hvalue, mul_assoc]

theorem rounds_add (hu : Canonical f u) (hv : Canonical f v) (hu' : u.isFinite = true)
    (hv' : v.isFinite = true) : Rounds f (value u + value v) (add f u v) := by
  match u, v with
  | .zero s, .zero t =>
    have h : value (.zero s) + value (.zero t) = 0 := add_zero _
    rw [h]
    show Rounds f 0 (if s == t then .zero s else .zero .positive)
    split_ifs
    · exact rounds_zero _
    · exact rounds_zero _
  | .zero s, .finite t m e hm =>
    have h : value (.zero s) + value (.finite t m e hm) = value (.finite t m e hm) := zero_add _
    rw [h]
    exact hv.rounds rfl
  | .finite s m e hm, .zero t =>
    have h : value (.finite s m e hm) + value (.zero t) = value (.finite s m e hm) := add_zero _
    rw [h]
    exact hu.rounds rfl
  | .finite s₁ m₁ e₁ _, .finite s₂ m₂ e₂ _ =>
    have h := rounds_normalize (f := f)
      (s₁.apply (decreaseExponent m₁ e₁ (min e₁ e₂)).1 +
        s₂.apply (decreaseExponent m₂ e₂ (min e₁ e₂)).1) (min e₁ e₂) .positive
    rw [Int.cast_add, add_mul, sign_apply_decreaseExponent _ _ (min_le_left _ _),
      sign_apply_decreaseExponent _ _ (min_le_right _ _)] at h
    exact h
  | .infinity _, _ | .notANumber, _ => cases hu'
  | .zero _, .infinity _ | .zero _, .notANumber => cases hv'
  | .finite .., .infinity _ | .finite .., .notANumber => cases hv'

theorem rounds_sub (hu : Canonical f u) (hv : Canonical f v) (hu' : u.isFinite = true)
    (hv' : v.isFinite = true) : Rounds f (value u - value v) (sub f u v) := by
  match u, v with
  | .zero s, .zero t =>
    have h : value (.zero s) - value (.zero t) = 0 := sub_zero _
    rw [h]
    show Rounds f 0 (if s == -t then .zero s else .zero .positive)
    split_ifs
    · exact rounds_zero _
    · exact rounds_zero _
  | .zero s, .finite t m e hm =>
    have h : value (.zero s) - value (.finite t m e hm) =
        value (UnpackedFloat.neg (.finite t m e hm)) := by
      rw [value_neg]
      exact zero_sub _
    rw [h]
    exact hv.neg.rounds rfl
  | .finite s m e hm, .zero t =>
    have h : value (.finite s m e hm) - value (.zero t) = value (.finite s m e hm) := sub_zero _
    rw [h]
    exact hu.rounds rfl
  | .finite s₁ m₁ e₁ _, .finite s₂ m₂ e₂ _ =>
    have h := rounds_normalize (f := f)
      (s₁.apply (decreaseExponent m₁ e₁ (min e₁ e₂)).1 -
        s₂.apply (decreaseExponent m₂ e₂ (min e₁ e₂)).1) (min e₁ e₂) .positive
    rw [Int.cast_sub, sub_mul, sign_apply_decreaseExponent _ _ (min_le_left _ _),
      sign_apply_decreaseExponent _ _ (min_le_right _ _)] at h
    exact h
  | .infinity _, _ | .notANumber, _ => cases hu'
  | .zero _, .infinity _ | .zero _, .notANumber => cases hv'
  | .finite .., .infinity _ | .finite .., .notANumber => cases hv'

lemma minExponent_nonpos : f.minExponent ≤ 0 := by
  have hp := two_le_mantissaBits f
  have hbits : (1 : ℤ) ≤ 2 ^ (f.exponentBits - 1) := one_le_pow₀ (by norm_num)
  unfold Float.Model.Format.minExponent
  omega

lemma sign_mul_apply (s t : Sign) : (s * t).apply 1 = s.apply 1 * t.apply 1 := by
  cases s <;> cases t <;> rfl

lemma sign_div_apply (s t : Sign) : (s / t).apply 1 = s.apply 1 * t.apply 1 := by
  cases s <;> cases t <;> rfl

/-- One mantissa with all of its bits is enough for the product to fill the unit. -/
lemma mul_unit_le {m₁ m₂ : ℕ} {e₁ e₂ : ℤ} (hm₁ : 0 < m₁) (hm₂ : 0 < m₂)
    (h₁ : f.minExponent ≤ e₁ ∧ (2 ^ (f.mantissaBits - 1) ≤ m₁ ∨ e₁ = f.minExponent))
    (h₂ : f.minExponent ≤ e₂ ∧ (2 ^ (f.mantissaBits - 1) ≤ m₂ ∨ e₂ = f.minExponent)) :
    e₁ + e₂ ≤ unitExponent f ((m₁ * m₂ : ℕ) * 2 ^ (e₁ + e₂)) := by
  have hmin := minExponent_nonpos (f := f)
  rcases em (e₁ = f.minExponent ∧ e₂ = f.minExponent) with ⟨rfl, rfl⟩ | hfull
  · exact le_trans (by omega) (minExponent_le_unitExponent f _)
  have hproduct : 2 ^ (f.mantissaBits - 1) ≤ m₁ * m₂ := by
    rcases h₁.2 with hfull₁ | hfull₁
    · exact hfull₁.trans (Nat.le_mul_of_pos_right m₁ hm₂)
    · have hfull₂ := h₂.2.resolve_right fun h => hfull ⟨hfull₁, h⟩
      exact hfull₂.trans (Nat.le_mul_of_pos_left m₂ hm₁)
  have hx : (0 : ℝ) < (m₁ * m₂ : ℕ) * 2 ^ (e₁ + e₂) := by positivity
  have hp := two_le_mantissaBits f
  have htarget : e₁ + e₂ ≤ f.targetExponent (e₁ + e₂ + f.mantissaBits) :=
    le_max_of_le_left (by omega)
  refine htarget.trans (targetExponent_le_unitExponent f ?_)
  have hcast : (2 : ℝ) ^ (f.mantissaBits - 1) ≤ (m₁ * m₂ : ℕ) := by exact_mod_cast hproduct
  rw [abs_of_pos hx, show e₁ + e₂ + (f.mantissaBits : ℤ) - 1 = (f.mantissaBits - 1 : ℕ) + (e₁ + e₂)
    by omega, zpow_add₀ (by norm_num), zpow_natCast]
  gcongr

theorem rounds_mul (hu : Canonical f u) (hv : Canonical f v) (hu' : u.isFinite = true)
    (hv' : v.isFinite = true) : Rounds f (value u * value v) (mul f u v) := by
  match u, v with
  | .zero s, .zero t =>
    have h : value (.zero s) * value (.zero t) = 0 := zero_mul _
    rw [h]
    exact rounds_zero _
  | .zero s, .finite t m e hm =>
    have h : value (.zero s) * value (.finite t m e hm) = 0 := zero_mul _
    rw [h]
    exact rounds_zero _
  | .finite s m e hm, .zero t =>
    have h : value (.finite s m e hm) * value (.zero t) = 0 := mul_zero _
    rw [h]
    exact rounds_zero _
  | .finite s₁ m₁ e₁ hm₁, .finite s₂ m₂ e₂ hm₂ =>
    have hm₁' : (0 : ℝ) < m₁ := by exact_mod_cast hm₁
    have hm₂' : (0 : ℝ) < m₂ := by exact_mod_cast hm₂
    have hx : (0 : ℝ) < (m₁ * m₂ : ℕ) * 2 ^ (e₁ + e₂) := by positivity
    have hvalue : value (.finite s₁ m₁ e₁ hm₁) * value (.finite s₂ m₂ e₂ hm₂) =
        ((s₁ * s₂).apply 1 : ℤ) * ((m₁ * m₂ : ℕ) * 2 ^ (e₁ + e₂)) := by
      rw [value_finite, value_finite, sign_mul_apply, zpow_add₀ (by norm_num)]
      push_cast
      ring
    rw [hvalue]
    exact rounds_of_exact _ hx rfl (mul_unit_le hm₁ hm₂ hu.2 hv.2)
  | .infinity _, _ | .notANumber, _ => cases hu'
  | .zero _, .infinity _ | .zero _, .notANumber => cases hv'
  | .finite .., .infinity _ | .finite .., .notANumber => cases hv'

/-- A quotient has the unit `t` when the numerator is shifted so far. -/
lemma div_eq_shiftLeft {m₁ m₂ : ℕ} {e₁ e₂ t : ℤ} (ht : t ≤ e₁ - e₂) :
    (m₁ : ℝ) * 2 ^ e₁ / (m₂ * 2 ^ e₂) / 2 ^ t = ((m₁ <<< (e₁ - e₂ - t).toNat : ℕ) : ℝ) / m₂ := by
  have hpow : (2 : ℝ) ^ e₁ = 2 ^ (e₁ - e₂ - t).toNat * 2 ^ e₂ * 2 ^ t := by
    rw [← zpow_natCast, ← zpow_add₀ (by norm_num), ← zpow_add₀ (by norm_num)]
    congr 1
    omega
  rw [Nat.shiftLeft_eq, hpow]
  push_cast
  field_simp

/-- The unit that division shifts to is not above the unit of the quotient. -/
lemma div_unit_le {m₁ m₂ : ℕ} {e₁ e₂ : ℤ} (hm₁ : 0 < m₁) (hm₂ : 0 < m₂) :
    min (e₁ - e₂) (f.targetExponent (totalExponent m₁ e₁ - totalExponent m₂ e₂)) ≤
      unitExponent f ((m₁ : ℝ) * 2 ^ e₁ / (m₂ * 2 ^ e₂)) := by
  have hm₁' : (0 : ℝ) < m₁ := by exact_mod_cast hm₁
  have hm₂' : (0 : ℝ) < m₂ := by exact_mod_cast hm₂
  have hx : (0 : ℝ) < m₁ * 2 ^ e₁ / (m₂ * 2 ^ e₂) := by positivity
  have hden : (m₂ : ℝ) * 2 ^ e₂ ≤ 2 ^ totalExponent m₂ e₂ := by
    refine le_trans ?_ (succ_mul_le_zpow_totalExponent m₂ e₂)
    gcongr
    linarith
  have hbig : (2 : ℝ) ^ (totalExponent m₁ e₁ - 1 - totalExponent m₂ e₂) ≤
      m₁ * 2 ^ e₁ / (m₂ * 2 ^ e₂) := by
    rw [zpow_sub₀ (by norm_num)]
    have hnum := zpow_totalExponent_le hm₁ e₁
    gcongr
  refine (min_le_right _ _).trans (targetExponent_le_unitExponent f ?_)
  rw [abs_of_pos hx]
  convert hbig using 2
  ring

theorem rounds_div (hv : value v ≠ 0) (hu' : u.isFinite = true) (hv' : v.isFinite = true) :
    Rounds f (value u / value v) (div f u v) := by
  match u, v with
  | _, .zero t => exact absurd rfl hv
  | .zero s, .finite t m e hm =>
    have h : value (.zero s) / value (.finite t m e hm) = 0 := zero_div _
    rw [h]
    exact rounds_zero _
  | .finite s₁ m₁ e₁ hm₁, .finite s₂ m₂ e₂ hm₂ =>
    have hm₁' : (0 : ℝ) < m₁ := by exact_mod_cast hm₁
    have hm₂' : (0 : ℝ) < m₂ := by exact_mod_cast hm₂
    have hx : (0 : ℝ) < m₁ * 2 ^ e₁ / (m₂ * 2 ^ e₂) := by positivity
    have hvalue : value (.finite s₁ m₁ e₁ hm₁) / value (.finite s₂ m₂ e₂ hm₂) =
        ((s₁ / s₂).apply 1 : ℤ) * (m₁ * 2 ^ e₁ / (m₂ * 2 ^ e₂)) := by
      rw [value_finite, value_finite, sign_div_apply, mul_div_mul_comm]
      congr 1
      cases s₁ <;> cases s₂ <;> simp [Sign.apply]
    rw [hvalue]
    refine rounds_roundWithAccuracy _ hx ?_ (div_unit_le hm₁ hm₂)
    rw [div_eq_shiftLeft (min_le_left _ _)]
    exact locates_accuracyOfFraction hm₂
  | .infinity _, _ | .notANumber, _ => cases hu'
  | .zero _, .infinity _ | .zero _, .notANumber => cases hv'
  | .finite .., .infinity _ | .finite .., .notANumber => cases hv'

/-- A square root has the unit `t` when the number is shifted so far. -/
lemma sqrt_eq_shiftLeft {m : ℕ} {e t : ℤ} (ht : t ≤ e.ediv 2) :
    √((m : ℝ) * 2 ^ e) / 2 ^ t = √((m <<< (e - 2 * t).toNat : ℕ) : ℝ) := by
  have hhalf : e.ediv 2 = e / 2 := rfl
  have hpow : (m : ℝ) * 2 ^ e = (m <<< (e - 2 * t).toNat : ℕ) * (2 ^ t) ^ 2 := by
    rw [Nat.shiftLeft_eq, ← zpow_natCast ((2 : ℝ) ^ t), ← zpow_mul]
    push_cast
    rw [mul_assoc, ← zpow_natCast, ← zpow_add₀ (by norm_num)]
    congr 2
    omega
  rw [hpow, Real.sqrt_mul (by positivity), Real.sqrt_sq (by positivity),
    mul_div_cancel_right₀ _ (by positivity)]

/-- The unit that the square root shifts to is not above the unit of the root. -/
lemma sqrt_unit_le {m : ℕ} {e : ℤ} (hm : 0 < m) :
    min (e.ediv 2) (f.targetExponent ((totalExponent m e + 1).ediv 2)) ≤
      unitExponent f √((m : ℝ) * 2 ^ e) := by
  refine (min_le_right _ _).trans (targetExponent_le_unitExponent f ?_)
  have hhalf : (totalExponent m e + 1).ediv 2 = (totalExponent m e + 1) / 2 := rfl
  rw [abs_of_nonneg (Real.sqrt_nonneg _), hhalf]
  apply Real.le_sqrt_of_sq_le
  refine le_trans ?_ (zpow_totalExponent_le hm e)
  rw [← zpow_natCast, ← zpow_mul]
  apply zpow_le_zpow_right₀ (by norm_num)
  push_cast
  omega

/-- The square root of a number that is not negative. -/
theorem rounds_sqrt (hu : 0 ≤ value u) (hu' : u.isFinite = true) :
    Rounds f (√(value u)) (sqrt f u) := by
  match u with
  | .zero s =>
    have h : √(value (.zero s)) = 0 := Real.sqrt_zero
    rw [h]
    exact rounds_zero _
  | .finite .negative m e hm =>
    exfalso
    have hm' : (0 : ℝ) < m := by exact_mod_cast hm
    have hpos : (0 : ℝ) < m * 2 ^ e := by positivity
    rw [value_finite] at hu
    simp only [Sign.apply, Int.cast_neg, Int.cast_one, neg_one_mul] at hu
    linarith
  | .finite .positive m e hm =>
    have hm' : (0 : ℝ) < m := by exact_mod_cast hm
    have hpos : (0 : ℝ) < m * 2 ^ e := by positivity
    have hx : 0 < √((m : ℝ) * 2 ^ e) := Real.sqrt_pos.mpr hpos
    have hvalue : √(value (.finite .positive m e hm)) =
        (Sign.positive.apply 1 : ℤ) * √((m : ℝ) * 2 ^ e) := by
      rw [value_finite]
      simp [Sign.apply]
    rw [hvalue]
    refine rounds_roundWithAccuracy _ hx ?_ (sqrt_unit_le hm)
    rw [sqrt_eq_shiftLeft (min_le_left _ _)]
    exact locates_sqrt _
  | .infinity _ | .notANumber => cases hu'

end Arithmetic

end Arbor.Number
