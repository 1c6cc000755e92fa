import Arbor.Proofs.Number.Unbounded

/-!
# Scaling by powers of two

Rounding to the bits of a format, without a smallest unit, commutes with powers of two
(`floated_zpow_mul`), and it is the rounding of the format wherever that has all of its bits
(`rounded_eq_floated`).  Further down the two differ, but what is small is lost as soon as it is
added to something large (`rounded_add_of_lt`).  `Tracks` follows both through products and sums:
they agree, or neither is large.

Products with the same value and the same signs are the same number (`mul_eq_mul`).
-/

namespace Arbor.Number

open Float.Model (UnpackedFloat)
open Float.Model.UnpackedFloat

/-! ## Rounding without a smallest unit -/

section Floated

variable (f : Float.Model.Format)

/-- The exponent of the unit in which a real has all bits. -/
noncomputable def floatedExponent (x : ℝ) : ℤ := Int.log 2 |x| + 1 - f.mantissaBits

/-- The nearest real with the bits of the format, however small. -/
noncomputable def floated (x : ℝ) : ℝ :=
  nearestEven (x / 2 ^ floatedExponent f x) * 2 ^ floatedExponent f x

lemma log_zpow_mul (k : ℤ) {x : ℝ} (hx : 0 < x) : Int.log 2 (2 ^ k * x) = k + Int.log 2 x := by
  have hlow := Int.zpow_log_le_self (R := ℝ) (b := 2) (by norm_num) hx
  have hhigh := Int.lt_zpow_succ_log_self (R := ℝ) (b := 2) (by norm_num) x
  have hpos : 0 < 2 ^ k * x := by positivity
  push_cast at hlow hhigh
  have hle : k + Int.log 2 x ≤ Int.log 2 (2 ^ k * x) := by
    refine (Int.zpow_le_iff_le_log (b := 2) (by norm_num) hpos).mp ?_
    push_cast
    rw [zpow_add₀ (by norm_num)]
    gcongr
  have hlt : Int.log 2 (2 ^ k * x) < k + (Int.log 2 x + 1) := by
    refine (Int.lt_zpow_iff_log_lt (b := 2) (by norm_num) hpos).mp ?_
    push_cast
    rw [zpow_add₀ (by norm_num)]
    gcongr
  omega

lemma floated_zero : floated f 0 = 0 := by
  have h : nearestEven 0 = 0 := by exact_mod_cast nearestEven_intCast 0
  simp [floated, h]

/-- Scaling by a power of two only moves the unit. -/
theorem floated_zpow_mul (k : ℤ) (x : ℝ) : floated f (2 ^ k * x) = 2 ^ k * floated f x := by
  rcases eq_or_ne x 0 with rfl | hx
  · rw [mul_zero, floated_zero, mul_zero]
  · have hunit : floatedExponent f (2 ^ k * x) = k + floatedExponent f x := by
      have hpos : (0 : ℝ) < 2 ^ k := by positivity
      rw [floatedExponent, floatedExponent, abs_mul, abs_of_pos hpos,
        log_zpow_mul k (abs_pos.mpr hx)]
      ring
    have hne : (2 : ℝ) ^ k ≠ 0 := by positivity
    rw [floated, floated, hunit, zpow_add₀ (by norm_num), mul_div_mul_left _ _ hne]
    ring

lemma floated_nonneg {x : ℝ} (hx : 0 ≤ x) : 0 ≤ floated f x := by
  have hdiv : ((0 : ℤ) : ℝ) ≤ x / 2 ^ floatedExponent f x := by
    rw [Int.cast_zero]
    positivity
  have hnear := nearestEven_mono hdiv
  rw [nearestEven_intCast] at hnear
  have hcast : (0 : ℝ) ≤ nearestEven (x / 2 ^ floatedExponent f x) := by exact_mod_cast hnear
  unfold floated
  positivity

lemma floated_le_zpow {x : ℝ} {t : ℤ} (h0 : 0 ≤ x) (h : x ≤ 2 ^ t) : floated f x ≤ 2 ^ t := by
  rcases h0.eq_or_lt with rfl | hpos
  · rw [floated_zero]
    positivity
  · set u := floatedExponent f x with hu
    have hunit : (0 : ℝ) < 2 ^ u := by positivity
    have hle : u ≤ t := by
      have hlow := Int.zpow_log_le_self (R := ℝ) (b := 2) (by norm_num) hpos
      push_cast at hlow
      have hlog := (zpow_le_zpow_iff_right₀ (by norm_num : (1 : ℝ) < 2)).mp (hlow.trans h)
      have hp := two_le_mantissaBits f
      rw [hu, floatedExponent, abs_of_pos hpos]
      omega
    -- in units of `x` the bound is an integer
    have hbound : (2 : ℝ) ^ t = ((2 ^ (t - u).toNat : ℤ) : ℝ) * 2 ^ u := by
      push_cast
      rw [← zpow_natCast, ← zpow_add₀ (by norm_num)]
      congr 1
      omega
    have hdiv : x / 2 ^ u ≤ ((2 ^ (t - u).toNat : ℤ) : ℝ) := by
      rw [div_le_iff₀ hunit, ← hbound]
      exact h
    have hnear := nearestEven_mono hdiv
    rw [nearestEven_intCast] at hnear
    rw [floated, ← hu, hbound]
    gcongr

variable {f}

/-- A format rounds a number that has all of its bits like this. -/
theorem rounded_eq_floated {x : ℝ} (h : 2 ^ (f.minExponent + f.mantissaBits - 1) ≤ |x|) :
    rounded f x = floated f x := by
  have hlog := le_log_of_zpow_le h
  have hunit : unitExponent f x = floatedExponent f x := by
    unfold unitExponent floatedExponent Float.Model.Format.targetExponent
    omega
  rw [rounded, floated, hunit]

/-- What is less than half a unit is lost when it is added to a number of the format. -/
theorem rounded_add_of_lt {a b : ℝ} (ha : rounded f a = a) (hpos : 0 < a) (hb : 0 ≤ b)
    (h : b < 2 ^ unitExponent f a / 2) : rounded f (a + b) = a := by
  set u := unitExponent f a with hu
  set n := nearestEven (a / 2 ^ u) with hn
  have hunit : (0 : ℝ) < 2 ^ u := by positivity
  have hwhole : a = n * 2 ^ u := by
    rw [← ha, rounded, ← hu]
  have habs : |a + b| = a + b := abs_of_pos (by positivity)
  -- the sum stays below the next power of two, as the multiple after `n` does
  have hnext : a + 2 ^ u ≤ 2 ^ (u + f.mantissaBits) := by
    have hlt := abs_lt_zpow_unitExponent f (x := a)
    rw [abs_of_pos hpos, ← hu, zpow_add₀ (by norm_num), zpow_natCast] at hlt
    have hcount : (n : ℝ) < ((2 ^ f.mantissaBits : ℤ) : ℝ) := by
      push_cast
      rw [hwhole, mul_comm] at hlt
      exact lt_of_mul_lt_mul_left hlt hunit.le
    have hcount' : (n : ℝ) + 1 ≤ 2 ^ f.mantissaBits := by exact_mod_cast hcount
    rw [zpow_add₀ (by norm_num), zpow_natCast, mul_comm]
    calc a + 2 ^ u = (n + 1) * 2 ^ u := by rw [hwhole]; ring
      _ ≤ 2 ^ f.mantissaBits * 2 ^ u := by gcongr
  have hsame : unitExponent f (a + b) = u := by
    apply le_antisymm
    · refine unitExponent_le_of_lt f (by positivity) (minExponent_le_unitExponent f a) ?_
      rw [habs]
      linarith
    · exact unitExponent_mono f (abs_pos.mpr hpos.ne') (by
        rw [habs, abs_of_pos hpos]
        linarith)
  have hdiv : (a + b) / 2 ^ u = n + b / 2 ^ u := by
    rw [add_div, hwhole, mul_div_cancel_right₀ _ hunit.ne']
  have hsmall : b / 2 ^ u < 1 / 2 := by
    rw [div_lt_iff₀ hunit]
    linarith
  have hnear : nearestEven (n + b / 2 ^ u) = n := by
    have hrest : 0 ≤ b / 2 ^ u := by positivity
    have hfract : Int.fract ((n : ℝ) + b / 2 ^ u) = b / 2 ^ u := by
      rw [Int.fract_intCast_add, Int.fract_eq_self]
      constructor <;> linarith
    unfold nearestEven
    rw [hfract, if_pos hsmall, Int.floor_intCast_add, Int.floor_eq_zero_iff.mpr
      ⟨hrest, by linarith⟩, add_zero]
  rw [rounded, hsame, hdiv, hnear, ← hwhole]

end Floated

/-! ## Single precision -/

section Single

variable {b c : ℝ} {t t' : ℤ} {x y : Float32}

lemma rounded_single {r : ℝ} (h : 2 ^ (-126 : ℤ) ≤ r) :
    rounded .binary32 r = floated .binary32 r :=
  rounded_eq_floated (h.trans (le_abs_self r))

lemma rounded_single_le_zpow {r : ℝ} (ht : -126 ≤ t) (h : r ≤ 2 ^ t) :
    rounded .binary32 r ≤ 2 ^ t :=
  (onGrid_zpow (by show (-149 : ℤ) ≤ t; omega)).rounded_le h

/-! ## Results that are known to be finite -/

lemma val_of_rounds {z : Float32} {u : UnpackedFloat} {r : ℝ}
    (hz : Packed.pattern z = pack .binary32 u) (hu : Rounds .binary32 r u) (h : IsFinite z) :
    val z = rounded .binary32 r := by
  by_cases hlimit : |rounded .binary32 r| < limit .binary32
  · exact (finite_of_rounds (α := Float32) hz hu hlimit).2
  · obtain ⟨s, hs, -⟩ := infinite_of_rounds (α := Float32) hz hu (not_lt.mp hlimit)
    rw [IsFinite, hs] at h
    cases h

lemma val_mul (hx : IsFinite x) (hy : IsFinite y) (h : IsFinite (x * y)) :
    val (x * y) = rounded .binary32 (val x * val y) :=
  val_of_rounds (Packed.pattern_mul x y)
    (rounds_mul (canonical_unpacked x) (canonical_unpacked y) hx hy) h

lemma val_add (hx : IsFinite x) (hy : IsFinite y) (h : IsFinite (x + y)) :
    val (x + y) = rounded .binary32 (val x + val y) :=
  val_of_rounds (Packed.pattern_add x y)
    (rounds_add (canonical_unpacked x) (canonical_unpacked y) hx hy) h

lemma not_isFinite_of_atLeast (hx : AtLeast (2 ^ (128 : ℤ)) x) : ¬ IsFinite x := by
  intro h
  rcases hx with ⟨-, hle⟩ | hinf
  · have hlt : |val x| < 2 ^ (128 : ℤ) := h.abs_val_lt
    linarith [le_abs_self (val x)]
  · rw [IsFinite, hinf] at h
    cases h

/-- A finite sum has finite summands, as an infinite one would be above every bound. -/
lemma isFinite_of_add (hx : AtLeast 0 x) (hy : AtLeast 0 y) (h : IsFinite (x + y)) :
    IsFinite x ∧ IsFinite y := by
  have hgrid : OnGrid .binary32 (2 ^ (128 : ℤ)) := onGrid_zpow (by decide)
  have hpos : (0 : ℝ) ≤ 2 ^ (128 : ℤ) := by positivity
  constructor
  · rcases hx with ⟨hx, -⟩ | hinf
    · exact hx
    · have hsum := AtLeast.add (.inr hinf) hy (by rwa [add_zero]) (by rwa [add_zero])
      rw [add_zero] at hsum
      exact absurd h (not_isFinite_of_atLeast hsum)
  · rcases hy with ⟨hy, -⟩ | hinf
    · exact hy
    · have hsum := AtLeast.add hx (.inr hinf) (by rwa [zero_add]) (by rwa [zero_add])
      rw [zero_add] at hsum
      exact absurd h (not_isFinite_of_atLeast hsum)

/-! ## Numbers with and without a smallest unit -/

/-- A finite number is what `b` is without a smallest unit, or neither of them is above `2 ^ t`. -/
structure Tracks (t : ℤ) (b : ℝ) (x : Float32) : Prop where
  finite : IsFinite x
  nonneg : 0 ≤ val x
  nonneg' : 0 ≤ b
  agree : val x = b ∨ val x ≤ 2 ^ t ∧ b ≤ 2 ^ t

lemma Tracks.mono (h : Tracks t b x) (htt : t ≤ t') : Tracks t' b x := by
  have hpow : (2 : ℝ) ^ t ≤ 2 ^ t' := zpow_le_zpow_right₀ (by norm_num) htt
  exact ⟨h.finite, h.nonneg, h.nonneg', h.agree.imp_right fun h => ⟨h.1.trans hpow, h.2.trans hpow⟩⟩

/-- Above the bound the two are equal. -/
lemma Tracks.val_eq (h : Tracks t b x) (hlarge : 2 ^ t < val x) : val x = b :=
  h.agree.resolve_right fun hsmall => absurd hsmall.1 (not_le.mpr hlarge)

/-- Rounded with a smallest unit or without, one real gives results that are equal, or small. -/
lemma tracks_of_rounded {r : ℝ} (hx : IsFinite x) (hval : val x = rounded .binary32 r)
    (h0 : 0 ≤ r) : Tracks (-126) (floated .binary32 r) x := by
  refine ⟨hx, hval ▸ rounded_nonneg _ h0, floated_nonneg _ h0, ?_⟩
  rcases le_or_gt ((2 : ℝ) ^ (-126 : ℤ)) r with hle | hlt
  · exact .inl (hval.trans (rounded_single hle))
  · exact .inr ⟨hval ▸ rounded_single_le_zpow (by norm_num) hlt.le, floated_le_zpow _ h0 hlt.le⟩

lemma tracks_mul (hx : IsFinite x) (hy : IsFinite y) (h : IsFinite (x * y))
    (h0 : 0 ≤ val x * val y) : Tracks (-126) (floated .binary32 (val x * val y)) (x * y) :=
  tracks_of_rounded h (val_mul hx hy h) h0

/-- A number is not changed by another one that is `2 ^ 25` times smaller. -/
lemma rounded_add_of_large {e : ℝ} (ht : -126 ≤ t) (hx : IsFinite x) (hlarge : 2 ^ (t + 25) ≤ val x)
    (h0 : 0 ≤ e) (h : e ≤ 2 ^ t) :
    rounded .binary32 (val x + e) = val x ∧ floated .binary32 (val x + e) = val x := by
  have hpos : 0 < val x := lt_of_lt_of_le (by positivity) hlarge
  have hunit : t + 2 ≤ unitExponent .binary32 (val x) := by
    have hlog := le_log_of_zpow_le hlarge
    have hunit := log_sub_le_unitExponent .binary32 (val x)
    have hbits : ((Float.Model.Format.binary32.mantissaBits : ℕ) : ℤ) = 24 := rfl
    rw [abs_of_pos hpos] at hunit
    omega
  have hhalf : e < 2 ^ unitExponent .binary32 (val x) / 2 := by
    have hpow : (2 : ℝ) ^ (t + 2) ≤ 2 ^ unitExponent .binary32 (val x) :=
      zpow_le_zpow_right₀ (by norm_num) hunit
    have hquarter : (2 : ℝ) ^ (t + 2) = 4 * 2 ^ t := by
      rw [zpow_add₀ (by norm_num)]
      norm_num [mul_comm]
    have : (0 : ℝ) < 2 ^ t := by positivity
    linarith
  have hrounded : rounded .binary32 (val x + e) = val x :=
    rounded_add_of_lt hx.rounded_val hpos h0 hhalf
  refine ⟨hrounded, ?_⟩
  rw [← rounded_single, hrounded]
  have hnormal : (2 : ℝ) ^ (-126 : ℤ) ≤ 2 ^ (t + 25) := zpow_le_zpow_right₀ (by norm_num) (by omega)
  linarith

lemma zpow_add_le (t : ℤ) : (2 : ℝ) ^ (t + 25) + 2 ^ t ≤ 2 ^ (t + 26) := by
  have hle : (2 : ℝ) ^ t ≤ 2 ^ (t + 25) := zpow_le_zpow_right₀ (by norm_num) (by omega)
  have htwice : (2 : ℝ) ^ (t + 26) = 2 * 2 ^ (t + 25) := by
    rw [show t + 26 = t + 25 + 1 by ring, zpow_add_one₀ (by norm_num), mul_comm]
  linarith

/-- Two small summands make no difference, or the sums are small as well. -/
lemma rounded_add_small {e e' : ℝ} (ht : -126 ≤ t) (hx : IsFinite x) (hx0 : 0 ≤ val x) (h0 : 0 ≤ e)
    (h : e ≤ 2 ^ t) (h0' : 0 ≤ e') (h' : e' ≤ 2 ^ t) :
    rounded .binary32 (val x + e) = floated .binary32 (val x + e') ∨
      rounded .binary32 (val x + e) ≤ 2 ^ (t + 26) ∧
        floated .binary32 (val x + e') ≤ 2 ^ (t + 26) := by
  rcases le_or_gt ((2 : ℝ) ^ (t + 25)) (val x) with hlarge | hlt
  · obtain ⟨hrounded, -⟩ := rounded_add_of_large ht hx hlarge h0 h
    obtain ⟨-, hfloated⟩ := rounded_add_of_large ht hx hlarge h0' h'
    exact .inl (hrounded.trans hfloated.symm)
  · have hsum := zpow_add_le t
    exact .inr ⟨rounded_single_le_zpow (by omega) (by linarith),
      floated_le_zpow _ (by linarith) (by linarith)⟩

/-- Adding keeps track: of two large summands neither unit is the smallest, and a small summand is
lost beside a large one. -/
lemma Tracks.add (hx : Tracks t b x) (hy : Tracks t c y) (ht : -126 ≤ t) (h : IsFinite (x + y)) :
    Tracks (t + 26) (floated .binary32 (b + c)) (x + y) := by
  have hval : val (x + y) = rounded .binary32 (val x + val y) := val_add hx.finite hy.finite h
  have hvnonneg : 0 ≤ val x + val y := add_nonneg hx.nonneg hy.nonneg
  have hbnonneg : 0 ≤ b + c := add_nonneg hx.nonneg' hy.nonneg'
  refine ⟨h, hval ▸ rounded_nonneg _ hvnonneg, floated_nonneg _ hbnonneg, ?_⟩
  rcases hx.agree with hxb | ⟨hxle, hble⟩
  · rcases hy.agree with hyc | ⟨hyle, hcle⟩
    · rw [← hxb, ← hyc]
      exact (tracks_of_rounded h hval hvnonneg).mono (by omega) |>.agree
    · rw [hval, ← hxb]
      exact rounded_add_small ht hx.finite hx.nonneg hy.nonneg hyle hy.nonneg' hcle
  · rcases hy.agree with hyc | ⟨hyle, hcle⟩
    · rw [hval, ← hyc, add_comm (val x), add_comm b]
      exact rounded_add_small ht hy.finite hy.nonneg hx.nonneg hxle hx.nonneg' hble
    · have hle : (2 : ℝ) ^ t ≤ 2 ^ (t + 25) := zpow_le_zpow_right₀ (by norm_num) (by omega)
      have hsum := zpow_add_le t
      exact .inr ⟨hval ▸ rounded_single_le_zpow (by omega) (by linarith),
        floated_le_zpow _ hbnonneg (by linarith)⟩

end Single

/-! ## Signs -/

/-- The sign of a number that is not a NaN. -/
def signField : UnpackedFloat → Option Sign
  | .infinity s | .zero s | .finite s _ _ _ => some s
  | .notANumber => none

/-- A finite number is told by its value and its sign. -/
lemma eq_of_value_eq {f : Float.Model.Format} {u v : UnpackedFloat} (hu : Canonical f u)
    (hv : Canonical f v) (hu' : u.isFinite = true) (hv' : v.isFinite = true)
    (hvalue : value u = value v) (hsign : signField u = signField v) : u = v := by
  match u, v with
  | .zero s, .zero t =>
    cases hsign
    rfl
  | .zero s, .finite t m e hm =>
    have habs := abs_value_finite t m e hm
    rw [← hvalue, value_zero, abs_zero] at habs
    exact absurd habs (mul_zpow_pos hm e).ne
  | .finite s m e hm, .zero t =>
    have habs := abs_value_finite s m e hm
    rw [hvalue, value_zero, abs_zero] at habs
    exact absurd habs (mul_zpow_pos hm e).ne
  | .finite s₁ m₁ e₁ hm₁, .finite s₂ m₂ e₂ hm₂ =>
    cases hsign
    have habs : (m₁ : ℝ) * 2 ^ e₁ = m₂ * 2 ^ e₂ := by
      rw [← abs_value_finite s₁ m₁ e₁ hm₁, hvalue, abs_value_finite]
    have hthen := compare_then_eq hu hv
    rw [habs, cmp_self_eq_eq] at hthen
    obtain ⟨he, hm⟩ := Ordering.then_eq_eq.mp hthen
    obtain rfl := Int.compare_eq_eq.mp he
    obtain rfl := Nat.compare_eq_eq.mp hm
    rfl
  | .infinity _, _ | .notANumber, _ => cases hu'
  | .zero _, .infinity _ | .zero _, .notANumber => cases hv'
  | .finite .., .infinity _ | .finite .., .notANumber => cases hv'

lemma signField_ofMantissa (s : Sign) (m : ℕ) (e : ℤ) : signField (ofMantissa s m e) = some s := by
  rcases Nat.eq_zero_or_pos m with rfl | hm
  · rfl
  · rw [ofMantissa_of_pos hm]
    rfl

/-- A product has the product of the signs, also where it rounds to zero. -/
lemma signField_mul {f : Float.Model.Format} {u v : UnpackedFloat} {s t : Sign}
    (hu : signField u = some s) (hv : signField v = some t) (hu' : u.isFinite = true)
    (hv' : v.isFinite = true) : signField (UnpackedFloat.mul f u v) = some (s * t) := by
  match u, v with
  | .zero _, .zero _ | .zero _, .finite .. | .finite .., .zero _ =>
    cases hu
    cases hv
    rfl
  | .finite .., .finite .. =>
    cases hu
    cases hv
    exact (congrArg signField (roundWithAccuracy_eq ..)).trans (signField_ofMantissa ..)
  | .infinity _, _ | .notANumber, _ => cases hu'
  | .zero _, .infinity _ | .zero _, .notANumber => cases hv'
  | .finite .., .infinity _ | .finite .., .notANumber => cases hv'

/-- Two numbers have the same sign, zeros included. -/
def SameSign (x y : Float32) : Prop := signField (unpacked x) = signField (unpacked y)

lemma signField_of_pos {u : UnpackedFloat} (h : 0 < value u) : signField u = some .positive := by
  match u with
  | .finite .positive .. => rfl
  | .finite .negative m e hm =>
    rw [value_negative] at h
    linarith [mul_zpow_pos hm e]
  | .zero _ | .infinity _ | .notANumber => exact absurd h (lt_irrefl 0)

lemma sameSign_of_pos {x y : Float32} (hx : 0 < val x) (hy : 0 < val y) : SameSign x y := by
  rw [SameSign, signField_of_pos hx, signField_of_pos hy]

lemma signField_eq_some {u : UnpackedFloat} (h : u.isFinite = true) :
    ∃ s, signField u = some s := by
  cases u with
  | infinity s | zero s | finite s => exact ⟨s, rfl⟩
  | notANumber => cases h

lemma pattern_injective {x y : Float32}
    (h : Packed.pattern x = Packed.pattern y) : x = y :=
  toBits_injective (UInt32.toBitVec_inj.mp h)

/-- **Equal products.** A product of finite numbers is told by the product of their values and by
their signs. -/
theorem mul_eq_mul {x y x' y' : Float32} (hx : IsFinite x) (hy : IsFinite y) (hx' : IsFinite x')
    (hy' : IsFinite y') (hvalue : val x * val y = val x' * val y') (hsign : SameSign x x')
    (hsign' : SameSign y y') : x * y = x' * y' := by
  obtain ⟨s, hs⟩ := signField_eq_some hx
  obtain ⟨t, ht⟩ := signField_eq_some hy
  have hrounds := rounds_mul (canonical_unpacked x) (canonical_unpacked y) hx hy
  have hrounds' := rounds_mul (canonical_unpacked x') (canonical_unpacked y') hx' hy'
  have hproduct := eq_of_value_eq hrounds.canonical hrounds'.canonical hrounds.isFinite
    hrounds'.isFinite
    (by rw [hrounds.value_eq, hrounds'.value_eq]; exact congrArg (rounded _) hvalue)
    (by rw [signField_mul hs ht hx hy, signField_mul (hsign ▸ hs) (hsign' ▸ ht) hx' hy'])
  apply pattern_injective
  rw [Packed.pattern_mul, Packed.pattern_mul]
  exact congrArg (pack _) hproduct

/-- The second number is the first one multiplied by `2 ^ k` exactly; a zero keeps its sign. -/
structure Scaled (k : ℤ) (x y : Float32) : Prop where
  finite : IsFinite x
  finite' : IsFinite y
  val_eq : val y = 2 ^ k * val x
  sign : SameSign x y

end Arbor.Number
