import Arbor.Number.Single
import Arbor.Proofs.Number.Range
import Mathlib.Data.Nat.Bitwise

/-!
# Bounds of conversions

The passages between integers, singles and doubles keep a bound that is a power of two: the double
of a natural number, the natural number of a double, and the two directions between single and
double precision.  The latter two are computed on bit patterns, where the bound is one on sizes.
-/

namespace Arbor.Number

open Float.Model (UnpackedFloat)
open Float.Model.UnpackedFloat

/-! ## Integers -/

lemma below_toFloat {n : UInt64} {k : ℕ} (h : n.toNat ≤ 2 ^ k) (hk : k < 1024) :
    Below k n.toFloat := by
  have hrounds := rounds_normalize (f := formatOf Float) (n.toNat : ℤ) 0 .positive
  rw [zpow_zero, mul_one, Int.cast_natCast] at hrounds
  have hle : (n.toNat : ℝ) ≤ 2 ^ k := by exact_mod_cast h
  have hheld : Held Float (2 ^ k) := held_two_pow hk
  have hlow : -(2 : ℝ) ^ k ≤ n.toNat := by
    have : (0 : ℝ) ≤ n.toNat := by positivity
    have : (0 : ℝ) < 2 ^ k := by positivity
    linarith
  have hfinite := finite_of_rounds (z := n.toFloat) rfl hrounds
    (abs_rounded_lt_limit hheld.neg hheld hlow hle)
  rw [below_iff_within]
  exact within_of_rounded hheld.neg hheld hlow hle hfinite

/-- Truncation takes the whole part of the size of a number. -/
lemma exists_roundToInt_eq (s : Sign) (m : ℕ) (e : ℤ) :
    ∃ n : ℕ, roundToInt s m e = s.apply n ∧ (n : ℝ) ≤ m * 2 ^ e ∧ m * 2 ^ e < (n : ℝ) + 1 := by
  set m' := (decreaseExponent m e 0).1 with hm'
  set e' := (decreaseExponent m e 0).2 with he'
  have hvalue : (m' : ℝ) * 2 ^ e' = m * 2 ^ e := decreaseExponent_value
  have hle : e' ≤ 0 := decreaseExponent_le (m := m)
  have hexact : Locates .exact m' m' := rfl
  have hrep := hexact.represents.shiftRight (0 - e').toNat
  have hfloor := hrep.mantissa_eq
  have hpow : (m' : ℝ) / 2 ^ (0 - e').toNat = m * 2 ^ e := by
    rw [← hvalue, ← zpow_natCast, div_eq_mul_inv, ← zpow_neg]
    congr 2
    omega
  rw [hpow] at hfloor
  have hcast : (((ExtendedMantissa.ofMantissaAndAccuracy m' .exact >>>
      (0 - e').toNat).mantissa : ℤ) : ℝ) = ⌊(m : ℝ) * 2 ^ e⌋ := congrArg _ hfloor
  rw [Int.cast_natCast] at hcast
  have hlow := hcast.trans_le (Int.floor_le _)
  have hhigh := Int.lt_floor_add_one ((m : ℝ) * 2 ^ e)
  rw [← hcast] at hhigh
  exact ⟨_, rfl, hlow, hhigh⟩

lemma toNat_ofNatClamp_le (n : ℕ) : (UInt64.ofNatClamp n).toNat ≤ n := by
  unfold UInt64.ofNatClamp
  split
  · exact (UInt64.toNat_ofNatLT ..).le
  · rename_i h
    exact le_of_lt (lt_of_lt_of_le (UInt64.toNat_lt_size _) (not_lt.mp h))

lemma toNat_toUInt64_le {x : Float} (hx : IsFinite x) : (x.toUInt64.toNat : ℝ) ≤ |val x| := by
  have hdef : x.toUInt64 = UInt64.ofNatClamp ((unpacked x).toInt 0 (UInt64.size - 1)).toNat := rfl
  have hclamp := toNat_ofNatClamp_le ((unpacked x).toInt 0 (UInt64.size - 1)).toNat
  rw [← hdef] at hclamp
  have hclamp' : (x.toUInt64.toNat : ℝ) ≤
      (((unpacked x).toInt 0 (UInt64.size - 1)).toNat : ℝ) := by exact_mod_cast hclamp
  refine hclamp'.trans ?_
  rw [val]
  rw [IsFinite] at hx
  generalize unpacked x = u at hx ⊢
  cases u with
  | zero s =>
    show (((0 : ℤ).toNat : ℕ) : ℝ) ≤ |value (.zero s)|
    simp
  | finite s m e hm =>
    obtain ⟨n, hn, hle, -⟩ := exists_roundToInt_eq s m e
    show (((roundToInt s m e).toNat : ℕ) : ℝ) ≤ _
    rw [hn, abs_value_finite]
    refine le_trans ?_ hle
    cases s <;> simp [Sign.apply]
  | infinity | notANumber => cases hx

/-- A positive double in range is truncated to its whole part. -/
lemma lt_toNat_toUInt64_add_one {x : Float} (hx : IsFinite x) (h0 : 0 ≤ val x)
    (h : val x < 2 ^ 63) : val x < x.toUInt64.toNat + 1 := by
  have hdef : x.toUInt64 = UInt64.ofNatClamp ((unpacked x).toInt 0 (UInt64.size - 1)).toNat := rfl
  rw [hdef]
  rw [val] at h0 h ⊢
  rw [IsFinite] at hx
  generalize unpacked x = u at hx h0 h ⊢
  cases u with
  | zero s =>
    rw [value_zero]
    positivity
  | finite s m e hm =>
    obtain ⟨n, hn, hle, hlt⟩ := exists_roundToInt_eq s m e
    have hpos : 0 < (m : ℝ) * 2 ^ e := mul_zpow_pos hm e
    have hs : s = .positive := by
      cases s with
      | positive => rfl
      | negative =>
        rw [value_negative] at h0
        linarith
    subst hs
    rw [value_positive] at h ⊢
    have hsmall : n < 2 ^ 63 := by
      have := hle.trans_lt h
      exact_mod_cast this
    have hword : (UInt64.ofNatClamp ((UnpackedFloat.finite .positive m e hm).toInt 0
        (UInt64.size - 1)).toNat).toNat = n := by
      show (UInt64.ofNatClamp (roundToInt .positive m e).toNat).toNat = n
      rw [hn]
      show (UInt64.ofNatClamp n).toNat = n
      rw [UInt64.ofNatClamp, dif_pos (hsmall.trans (by decide))]
      exact UInt64.toNat_ofNatLT ..
    rwa [hword]
  | infinity | notANumber => cases hx

/-- Whole numbers up to the number of mantissas are exact. -/
lemma val_of_rounds_nat {α : Type} [Packed α] {z : α} {n : ℕ}
    {u : UnpackedFloat} (hz : Packed.pattern z = pack _ u) (hu : Rounds (formatOf α) n u)
    (h : n ≤ 2 ^ (formatOf α).mantissaBits) (htop : (formatOf α).mantissaBits < top α) :
    IsFinite z ∧ val z = n := by
  have hgrid : OnGrid (formatOf α) (n : ℝ) :=
    ⟨n, 0, by rw [Nat.abs_cast]; exact_mod_cast h, minExponent_nonpos, by simp⟩
  have hle : |(n : ℝ)| ≤ 2 ^ (formatOf α).mantissaBits := by
    rw [Nat.abs_cast]
    exact_mod_cast h
  have hfinite := finite_of_rounds hz hu (abs_rounded_lt_of_abs_le htop hle)
  rwa [hgrid.rounded_eq] at hfinite

lemma val_toFloat {n : UInt64} (h : n.toNat ≤ 2 ^ 53) :
    IsFinite n.toFloat ∧ val n.toFloat = n.toNat := by
  have hrounds := rounds_normalize (f := formatOf Float) (n.toNat : ℤ) 0 .positive
  rw [zpow_zero, mul_one, Int.cast_natCast] at hrounds
  exact val_of_rounds_nat rfl hrounds h (by decide)

lemma val_toFloat32 {n : UInt64} (h : n.toNat ≤ 2 ^ 24) :
    IsFinite n.toFloat32 ∧ val n.toFloat32 = n.toNat := by
  have hrounds := rounds_normalize (f := formatOf Float32) (n.toNat : ℤ) 0 .positive
  rw [zpow_zero, mul_one, Int.cast_natCast] at hrounds
  exact val_of_rounds_nat rfl hrounds h (by decide)

/-! ## Between single and double precision -/

lemma toNat_and_signBit (s : UInt32) :
    (s &&& signBit).toNat = (s.toNat.testBit 31).toNat * 2 ^ 31 := by
  rw [UInt32.toNat_and]
  exact Nat.and_two_pow _ 31

/-- A sign bit that is put into a pattern does not change its size. -/
lemma toNat_or_sign (n : UInt64) (s : UInt32) :
    (n ||| (s &&& signBit).toUInt64 <<< 32).toNat % 2 ^ 63 = n.toNat % 2 ^ 63 := by
  have hsign : ((s &&& signBit).toUInt64 <<< 32).toNat % 2 ^ 63 = 0 := by
    rw [UInt64.toNat_shiftLeft, UInt32.toNat_toUInt64, toNat_and_signBit, Nat.shiftLeft_eq]
    have h32 : (32 : UInt64).toNat % 64 = 32 := rfl
    rw [h32, Nat.mod_mod_of_dvd _ (by norm_num), Nat.mul_assoc, ← Nat.pow_add, Nat.mul_mod_left]
  rw [UInt64.toNat_or, Nat.or_mod_two_pow, hsign, Nat.or_zero]

lemma toNat_or_signBit (n s : UInt32) :
    (n ||| (s &&& signBit)).toNat % 2 ^ 31 = n.toNat % 2 ^ 31 := by
  rw [UInt32.toNat_or, Nat.or_mod_two_pow, toNat_and_signBit, Nat.mul_mod_left, Nat.or_zero]

/-- The smallest positive single, as a double. -/
lemma abs_val_smallest : IsFinite (Float.ofBits 0x36A0000000000000) ∧
    |val (Float.ofBits 0x36A0000000000000)| = 1 / 2 ^ 149 := by
  refine ⟨(below_double_ofBits (k := 0) (by norm_num) (by decide)).1, ?_⟩
  have habs : |val (Float.ofBits 0x36A0000000000000)| = magnitude .binary64 0x36A0000000000000 :=
    abs_val_ofPattern (α := Float) (b := 0x36A0000000000000#64) (by decide)
  rw [habs]
  norm_num [magnitude_binary64]

lemma widen_of_subnormal {y : Float32} (h : (y.toBits &&& 0x7FFFFFFF).toNat < 2 ^ 23) :
    widen y = Float.ofBits (((y.toBits &&& 0x7FFFFFFF).toUInt64.toFloat *
      Float.ofBits 0x36A0000000000000).toBits ||| (y.toBits &&& signBit).toUInt64 <<< 32) := by
  have hsub : (y.toBits &&& 0x7FFFFFFF).toUInt64 < 0x00800000 := by
    rw [UInt64.lt_iff_toNat_lt, UInt32.toNat_toUInt64]
    exact h
  unfold widen
  dsimp only
  rw [if_pos hsub]

/-- The pattern of a normal single is padded with zeros, under the exponent of a double. -/
lemma exists_widen_eq {y : Float32} (h₁ : 2 ^ 23 ≤ (y.toBits &&& 0x7FFFFFFF).toNat)
    (h₂ : (y.toBits &&& 0x7FFFFFFF).toNat < 0x7F800000) :
    ∃ n : UInt64, n.toNat = (y.toBits &&& 0x7FFFFFFF).toNat * 2 ^ 29 + 896 * 2 ^ 52 ∧
      widen y = Float.ofBits (n ||| (y.toBits &&& signBit).toUInt64 <<< 32) := by
  unfold widen
  dsimp only
  generalize y.toBits &&& 0x7FFFFFFF = size at h₁ h₂ ⊢
  have hwide : size.toUInt64.toNat = size.toNat := UInt32.toNat_toUInt64 _
  have hnormal : ¬ size.toUInt64 < 0x00800000 := by
    rw [UInt64.lt_iff_toNat_lt, hwide]
    exact not_lt.mpr h₁
  have hbelow : size.toUInt64 < 0x7F800000 := by
    rw [UInt64.lt_iff_toNat_lt, hwide]
    exact h₂
  refine ⟨size.toUInt64 <<< 29 + 0x3800000000000000, ?_, by rw [if_neg hnormal, if_pos hbelow]⟩
  have h29 : (29 : UInt64).toNat % 64 = 29 := rfl
  have hbias : (0x3800000000000000 : UInt64).toNat = 896 * 2 ^ 52 := rfl
  rw [UInt64.toNat_add, UInt64.toNat_shiftLeft, hwide, Nat.shiftLeft_eq, h29, hbias]
  generalize size.toNat = n at h₂
  norm_num at h₂ ⊢
  omega

lemma below_widen {y : Float32} {k : ℕ} (h : Below k y) (hk : k < 128) : Below k (widen y) := by
  have hsize := (below_iff_toNat_le hk).mp h
  rcases Nat.lt_or_ge (y.toBits &&& 0x7FFFFFFF).toNat (2 ^ 23) with hsub | hnormal
  · rw [widen_of_subnormal hsub]
    apply below_double_ofBits (by omega)
    rw [toNat_or_sign, ← toNat_and_double, ← below_double_iff_toNat_le (by omega)]
    have hword : (y.toBits &&& 0x7FFFFFFF).toUInt64.toNat ≤ 2 ^ 23 := by
      rw [UInt32.toNat_toUInt64]
      exact hsub.le
    have hleft := below_toFloat hword (by norm_num)
    obtain ⟨hright, hunit⟩ := abs_val_smallest
    apply below_mul (by change k < 1024; omega) hleft.1 hright
    have hone : (1 : ℝ) ≤ 2 ^ k := one_le_pow₀ (by norm_num)
    calc |val (y.toBits &&& 0x7FFFFFFF).toUInt64.toFloat * val (Float.ofBits 0x36A0000000000000)|
        ≤ 2 ^ 23 * (1 / 2 ^ 149) := by
          rw [abs_mul, hunit]
          exact mul_le_mul_of_nonneg_right hleft.2 (by positivity)
      _ ≤ 2 ^ k := by
          norm_num at hone ⊢
          linarith
  · obtain ⟨n, hn, hwiden⟩ := exists_widen_eq hnormal (hsize.trans_lt (by omega))
    rw [hwiden]
    apply below_double_ofBits (by omega)
    rw [toNat_or_sign, hn]
    generalize (y.toBits &&& 0x7FFFFFFF).toNat = size at hsize hnormal ⊢
    omega

/-- A shifted number is rounded by half a unit, less one if the number below it is even. -/
lemma toNat_shiftEven {n shift : UInt64} (hn : n.toNat < 2 ^ 62) (hpos : 0 < shift.toNat)
    (hlt : shift.toNat < 62) : (shiftEven n shift).toNat =
      (n.toNat + (2 ^ (shift.toNat - 1) - 1) + n.toNat / 2 ^ shift.toNat % 2) / 2 ^ shift.toNat := by
  obtain ⟨i, hi⟩ : ∃ i, shift.toNat = i + 1 := ⟨shift.toNat - 1, by omega⟩
  have hmod : shift.toNat % 64 = i + 1 := by omega
  have hprev : (shift - 1).toNat % 64 = i := by
    rw [UInt64.toNat_sub_of_le _ _ (by rw [UInt64.le_iff_toNat_le]; exact hpos)]
    show (shift.toNat - 1) % 64 = i
    omega
  have hpow : 2 ^ i ≤ 2 ^ 61 := Nat.pow_le_pow_right (by norm_num) (by omega)
  have hone : 1 ≤ 2 ^ i := Nat.one_le_two_pow
  have hhalf : ((1 : UInt64) <<< (shift - 1)).toNat = 2 ^ i := by
    rw [UInt64.toNat_shiftLeft, hprev, Nat.shiftLeft_eq]
    show 1 * 2 ^ i % 2 ^ 64 = 2 ^ i
    rw [Nat.one_mul, Nat.mod_eq_of_lt (by omega)]
  have hbit : ((n >>> shift) &&& 1).toNat = n.toNat / 2 ^ (i + 1) % 2 := by
    rw [UInt64.toNat_and, UInt64.toNat_shiftRight, hmod, Nat.shiftRight_eq_div_pow]
    exact Nat.and_one_is_mod _
  have hround : (((1 : UInt64) <<< (shift - 1)) - 1).toNat = 2 ^ i - 1 := by
    rw [UInt64.toNat_sub_of_le _ _ (by rw [UInt64.le_iff_toNat_le, hhalf]; exact hone), hhalf]
    rfl
  unfold shiftEven
  rw [UInt64.toNat_shiftRight, hmod, Nat.shiftRight_eq_div_pow, UInt64.toNat_add,
    UInt64.toNat_add, hround, hi, Nat.add_sub_cancel, hbit]
  rw [Nat.mod_eq_of_lt (by omega), Nat.mod_eq_of_lt (by omega)]

/-- Rounding a shifted number up does not pass an integer bound. -/
lemma toNat_shiftEven_le {n shift : UInt64} {b : ℕ} (hn : n.toNat < 2 ^ 62)
    (hpos : 0 < shift.toNat) (hlt : shift.toNat < 62) (h : n.toNat ≤ b * 2 ^ shift.toNat) :
    (shiftEven n shift).toNat ≤ b := by
  have heq := toNat_shiftEven hn hpos hlt
  have hodd := Nat.mod_lt (n.toNat / 2 ^ shift.toNat) two_pos
  generalize n.toNat / 2 ^ shift.toNat % 2 = odd at heq hodd
  obtain ⟨i, hi⟩ : ∃ i, shift.toNat = i + 1 := ⟨shift.toNat - 1, by omega⟩
  have hone : 1 ≤ 2 ^ i := Nat.one_le_two_pow
  rw [hi, pow_succ] at h
  rw [heq, hi, Nat.add_sub_cancel]
  apply Nat.le_of_lt_succ
  have hnext : (b + 1) * (2 ^ i * 2) = b * (2 ^ i * 2) + 2 ^ i * 2 := by ring
  rw [Nat.div_lt_iff_lt_mul (by positivity), pow_succ, Nat.succ_eq_add_one, hnext]
  omega

/-- Nor does rounding down. -/
lemma le_toNat_shiftEven {n shift : UInt64} {b : ℕ} (hn : n.toNat < 2 ^ 62)
    (hpos : 0 < shift.toNat) (hlt : shift.toNat < 62) (h : b * 2 ^ shift.toNat ≤ n.toNat) :
    b ≤ (shiftEven n shift).toNat := by
  have heq := toNat_shiftEven hn hpos hlt
  have hodd := Nat.mod_lt (n.toNat / 2 ^ shift.toNat) two_pos
  generalize n.toNat / 2 ^ shift.toNat % 2 = odd at heq hodd
  rw [heq, Nat.le_div_iff_mul_le (by positivity)]
  omega

/-- A number that is nearest to a multiple of the unit, or between it and another one if it is the
even one, is rounded to it. -/
lemma toNat_shiftEven_eq {n shift : UInt64} {b i : ℕ} (hn : n.toNat < 2 ^ 62)
    (hi : shift.toNat = i + 1) (hlt : i < 61) (h₁ : b * 2 ^ (i + 1) ≤ n.toNat + 2 ^ i)
    (h₂ : n.toNat ≤ b * 2 ^ (i + 1) + 2 ^ i)
    (htie : Even b ∨ n.toNat + 2 ^ i ≠ b * 2 ^ (i + 1) ∧ n.toNat ≠ b * 2 ^ (i + 1) + 2 ^ i) :
    (shiftEven n shift).toNat = b := by
  have hone : 1 ≤ 2 ^ i := Nat.one_le_two_pow
  have hnext : (b + 1) * 2 ^ (i + 1) = b * 2 ^ (i + 1) + 2 ^ (i + 1) := by ring
  have htwice : 2 ^ (i + 1) = 2 * 2 ^ i := by ring
  rw [Nat.even_iff] at htie
  rw [toNat_shiftEven hn (by omega) (by omega), hi, Nat.add_sub_cancel]
  suffices h : b * 2 ^ (i + 1) ≤ n.toNat + (2 ^ i - 1) + n.toNat / 2 ^ (i + 1) % 2 ∧
      n.toNat + (2 ^ i - 1) + n.toNat / 2 ^ (i + 1) % 2 < (b + 1) * 2 ^ (i + 1) from
    Nat.div_eq_of_lt_le h.1 h.2
  rcases Nat.lt_or_ge n.toNat (b * 2 ^ (i + 1)) with hbelow | habove
  · obtain ⟨a, rfl⟩ : ∃ a, b = a + 1 := Nat.exists_eq_succ_of_ne_zero (by
      rintro rfl
      omega)
    have hprev : (a + 1) * 2 ^ (i + 1) = a * 2 ^ (i + 1) + 2 ^ (i + 1) := by ring
    have hquotient : n.toNat / 2 ^ (i + 1) = a := Nat.div_eq_of_lt_le (by omega) hbelow
    rw [hquotient]
    omega
  · have hquotient : n.toNat / 2 ^ (i + 1) = b := Nat.div_eq_of_lt_le habove (by omega)
    rw [hquotient]
    omega

/-- What narrowing makes of the size of a double.  A normal single keeps 24 of the 53 digits; below
the normal range a multiple of the smallest single is left, and nothing of what is below half of
it. -/
inductive Narrows (size : ℕ) : UInt64 → Prop
  | normal (w : UInt64) (hw : w.toNat + 896 * 2 ^ 52 = size) (hone : 2 ^ 52 ≤ w.toNat) :
    Narrows size (shiftEven w 29)
  | subnormal (w shift : UInt64) (hlow : 872 * 2 ^ 52 ≤ size) (hhigh : size < 897 * 2 ^ 52)
    (hw : w.toNat = 2 ^ 52 + size % 2 ^ 52) (hshift : shift.toNat = 926 - size / 2 ^ 52) :
    Narrows size (shiftEven w shift)
  | lost (hlow : size < 872 * 2 ^ 52) : Narrows size 0

/-- The fraction of a double with its leading one. -/
lemma toNat_whole (size : UInt64) : ((size &&& 0xFFFFFFFFFFFFF) ||| 0x10000000000000).toNat =
    2 ^ 52 + size.toNat % 2 ^ 52 := by
  have hmask : size.toNat &&& (0xFFFFFFFFFFFFF : UInt64).toNat = size.toNat % 2 ^ 52 :=
    Nat.and_two_pow_sub_one_eq_mod size.toNat 52
  have hor := Nat.two_pow_add_eq_or_of_lt (Nat.mod_lt size.toNat (Nat.two_pow_pos 52)) 1
  rw [Nat.mul_one] at hor
  rw [UInt64.toNat_or, UInt64.toNat_and, hmask, Nat.or_comm]
  exact hor.symm

/-- A double that is no NaN keeps its sign and is narrowed by its size. -/
lemma exists_narrows (x : Float)
    (h : (x.toBits &&& 0x7FFFFFFFFFFFFFFF).toNat ≤ 0x7FF0000000000000) :
    ∃ n, Narrows (x.toBits &&& 0x7FFFFFFFFFFFFFFF).toNat n ∧ (n.toNat < 0x7F800000 →
      narrow x = Float32.ofBits (n.toUInt32 ||| ((x.toBits >>> 32).toUInt32 &&& signBit))) := by
  unfold narrow
  dsimp only
  generalize x.toBits &&& 0x7FFFFFFFFFFFFFFF = size at h ⊢
  have hnumber : ¬ 0x7FF0000000000000 < size := by
    rw [UInt64.lt_iff_toNat_lt]
    exact not_lt.mpr h
  rw [if_neg hnumber]
  by_cases hnormal : 0x3810000000000000 ≤ size
  · have hnormal' : 0x3810000000000000 ≤ size.toNat := UInt64.le_iff_toNat_le.mp hnormal
    have hbias : (0x3800000000000000 : UInt64).toNat = 896 * 2 ^ 52 := rfl
    have hdiff : (size - 0x3800000000000000).toNat = size.toNat - 896 * 2 ^ 52 := by
      rw [UInt64.toNat_sub_of_le, hbias]
      rw [UInt64.le_iff_toNat_le, hbias]
      omega
    refine ⟨_, .normal (size - 0x3800000000000000) (by omega) (by omega), fun hlt => ?_⟩
    have hfinite : shiftEven (size - 0x3800000000000000) 29 < 0x7F800000 :=
      UInt64.lt_iff_toNat_lt.mpr hlt
    rw [if_pos hnormal, if_pos hfinite]
  · have hhigh : size.toNat < 897 * 2 ^ 52 := UInt64.lt_iff_toNat_lt.mp (UInt64.not_le.mp hnormal)
    have hfield : (size >>> 52).toNat = size.toNat / 2 ^ 52 := by
      rw [UInt64.toNat_shiftRight]
      exact Nat.shiftRight_eq_div_pow _ _
    have hshift : ((926 : UInt64) - size >>> 52).toNat = 926 - size.toNat / 2 ^ 52 := by
      rw [UInt64.toNat_sub_of_le, hfield]
      · rfl
      · rw [UInt64.le_iff_toNat_le, hfield]
        show _ ≤ 926
        omega
    rw [if_neg hnormal]
    by_cases htiny : (54 : UInt64) < (926 : UInt64) - size >>> 52
    · have htiny' : 54 < ((926 : UInt64) - size >>> 52).toNat := UInt64.lt_iff_toNat_lt.mp htiny
      refine ⟨0, .lost (by omega), fun _ => ?_⟩
      have hzero : (0 : UInt64).toUInt32 = 0 := rfl
      rw [if_pos htiny, hzero, UInt32.zero_or]
    · have htiny' : ((926 : UInt64) - size >>> 52).toNat ≤ 54 :=
        UInt64.le_iff_toNat_le.mp (UInt64.not_lt.mp htiny)
      refine ⟨_, .subnormal _ _ (by omega) hhigh (toNat_whole size) hshift, fun _ => ?_⟩
      rw [if_neg htiny]

/-- A double below the normal range does not pass the smallest normal single: thirty digits or more
are shifted away. -/
lemma Narrows.toNat_le {size : ℕ} {n : UInt64} (hn : Narrows size n) (h : size < 897 * 2 ^ 52) :
    n.toNat ≤ 2 ^ 23 := by
  cases hn with
  | normal w hw hone => omega
  | subnormal w shift hlow hhigh hw hshift =>
    have hdigits : 30 ≤ shift.toNat := by omega
    have hpow : 2 ^ 30 ≤ 2 ^ shift.toNat := Nat.pow_le_pow_right two_pos hdigits
    apply toNat_shiftEven_le <;> omega
  | lost hlow => decide

lemma below_narrow {x : Float} {k : ℕ} (h : Below k x) (hk : k < 128) : Below k (narrow x) := by
  have hsize := (below_double_iff_toNat_le (by omega)).mp h
  obtain ⟨n, hn, hnarrow⟩ := exists_narrows x (hsize.trans (by omega))
  generalize (x.toBits &&& 0x7FFFFFFFFFFFFFFF).toNat = size at hsize hn
  have hround : n.toNat ≤ (k + 127) * 2 ^ 23 := by
    rcases Nat.lt_or_ge size (897 * 2 ^ 52) with hsmall | hlarge
    · have := hn.toNat_le hsmall
      omega
    · cases hn with
      | normal w hw hone =>
        have h29 : (29 : UInt64).toNat = 29 := rfl
        apply toNat_shiftEven_le
        · omega
        · decide
        · decide
        · rw [h29]
          omega
      | subnormal => omega
      | lost => omega
  rw [hnarrow (by omega)]
  apply below_ofBits hk
  rw [toNat_or_signBit, UInt64.toNat_toUInt32]
  omega

end Arbor.Number
