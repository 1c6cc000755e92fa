import Arbor.Number.Single
import Arbor.Proofs.Number.Arithmetic
import Mathlib.Tactic.NormNum

/-!
# Ranges of computed numbers

`Within lo hi x` says that `x` is finite and lies between two reals.  Since rounding is monotone,
the exact bounds of a result are bounds of the rounded one if the format holds them
(`within_add` and its siblings).  `Below k x` is the range of the powers of two, `|x| ≤ 2^k`, whose
bounds the format always holds; it makes for short chains of rough bounds.

Bounds are read off bit patterns too: the size of a pattern is compared with that of a power of two
(`below_iff_size_le`).
-/

namespace Arbor.Number

open Float.Model (UnpackedFloat)
open Float.Model.UnpackedFloat

section Packed

variable {α : Type} [Packed α] {x y : α}

/-- A real that the numbers of a type hold. -/
def Held (α : Type) [Packed α] (b : ℝ) : Prop :=
  OnGrid (formatOf α) b ∧ |b| < limit (formatOf α)

/-- A finite number between two reals. -/
def Within (lo hi : ℝ) (x : α) : Prop := IsFinite x ∧ lo ≤ val x ∧ val x ≤ hi

variable {lo hi : ℝ}

lemma abs_rounded_lt_limit {r : ℝ} (hlo : Held α lo) (hhi : Held α hi) (h₁ : lo ≤ r)
    (h₂ : r ≤ hi) : |rounded (formatOf α) r| < limit (formatOf α) := by
  have hlow := hlo.1.le_rounded h₁
  have hhigh := hhi.1.rounded_le h₂
  have := abs_lt.mp hlo.2
  have := abs_lt.mp hhi.2
  rw [abs_lt]
  constructor <;> linarith

lemma within_of_rounded {z : α} {r : ℝ} (hlo : Held α lo) (hhi : Held α hi) (h₁ : lo ≤ r)
    (h₂ : r ≤ hi) (h : IsFinite z ∧ val z = rounded (formatOf α) r) : Within lo hi z := by
  obtain ⟨hz, hval⟩ := h
  rw [Within, hval]
  exact ⟨hz, hlo.1.le_rounded h₁, hhi.1.rounded_le h₂⟩

lemma within_add (hlo : Held α lo) (hhi : Held α hi) (hx : IsFinite x) (hy : IsFinite y)
    (h₁ : lo ≤ val x + val y) (h₂ : val x + val y ≤ hi) : Within lo hi (x + y) :=
  within_of_rounded hlo hhi h₁ h₂ (finite_add hx hy (abs_rounded_lt_limit hlo hhi h₁ h₂))

lemma within_sub (hlo : Held α lo) (hhi : Held α hi) (hx : IsFinite x) (hy : IsFinite y)
    (h₁ : lo ≤ val x - val y) (h₂ : val x - val y ≤ hi) : Within lo hi (x - y) :=
  within_of_rounded hlo hhi h₁ h₂ (finite_sub hx hy (abs_rounded_lt_limit hlo hhi h₁ h₂))

lemma within_mul (hlo : Held α lo) (hhi : Held α hi) (hx : IsFinite x) (hy : IsFinite y)
    (h₁ : lo ≤ val x * val y) (h₂ : val x * val y ≤ hi) : Within lo hi (x * y) :=
  within_of_rounded hlo hhi h₁ h₂ (finite_mul hx hy (abs_rounded_lt_limit hlo hhi h₁ h₂))

lemma within_div (hlo : Held α lo) (hhi : Held α hi) (hx : IsFinite x) (hy : IsFinite y)
    (hy0 : val y ≠ 0) (h₁ : lo ≤ val x / val y) (h₂ : val x / val y ≤ hi) :
    Within lo hi (x / y) :=
  within_of_rounded hlo hhi h₁ h₂ (finite_div hx hy hy0 (abs_rounded_lt_limit hlo hhi h₁ h₂))

/-! ## Powers of two -/

/-- The exponent of the limit. -/
def top (α : Type) [Packed α] : ℕ := 2 ^ ((formatOf α).exponentBits - 1)

/-- IsFinite and at most a power of two in size. -/
def Below (k : ℕ) (x : α) : Prop := IsFinite x ∧ |val x| ≤ 2 ^ k

variable {k l n : ℕ}

lemma held_two_pow (hk : k < top α) : Held α (2 ^ k) := by
  constructor
  · have hmin : (formatOf α).minExponent ≤ k := minExponent_nonpos.trans (Int.natCast_nonneg k)
    simpa using onGrid_zpow hmin
  · rw [abs_of_pos (by positivity)]
    exact pow_lt_pow_right₀ (by norm_num) hk

lemma Held.neg {b : ℝ} (h : Held α b) : Held α (-b) := by
  refine ⟨h.1.neg, ?_⟩
  rw [abs_neg]
  exact h.2

lemma below_iff_within : Below k x ↔ Within (-2 ^ k) (2 ^ k) x := by
  rw [Below, Within, abs_le]

lemma Within.below {k : ℕ} (h : Within lo hi x) (hlo : -2 ^ k ≤ lo) (hhi : hi ≤ 2 ^ k) :
    Below k x := by
  rw [below_iff_within]
  exact ⟨h.1, hlo.trans h.2.1, h.2.2.trans hhi⟩

lemma below_of_within (h : Within 0 (2 ^ k) x) : Below k x :=
  h.below (neg_nonpos.mpr (by positivity)) le_rfl

lemma Below.mono (h : Below k x) (hkl : k ≤ l) : Below l x :=
  ⟨h.1, h.2.trans (pow_le_pow_right₀ (by norm_num) hkl)⟩

lemma two_mul_two_pow_le (hk : k < n) : 2 * (2 : ℝ) ^ k ≤ 2 ^ n := by
  rw [← pow_succ']
  exact pow_le_pow_right₀ (by norm_num) hk

/-- An exact result in a range of powers of two stays below the limit when it is rounded. -/
lemma abs_rounded_lt_of_abs_le {r : ℝ} (hn : n < top α) (h : |r| ≤ 2 ^ n) :
    |rounded (formatOf α) r| < limit (formatOf α) :=
  abs_rounded_lt_limit (held_two_pow hn).neg (held_two_pow hn) (abs_le.mp h).1 (abs_le.mp h).2

lemma below_add (hn : n < top α) (hx : IsFinite x) (hy : IsFinite y)
    (h : |val x + val y| ≤ 2 ^ n) : Below n (x + y) := by
  rw [below_iff_within]
  rw [abs_le] at h
  exact within_add (held_two_pow hn).neg (held_two_pow hn) hx hy h.1 h.2

lemma below_sub (hn : n < top α) (hx : IsFinite x) (hy : IsFinite y)
    (h : |val x - val y| ≤ 2 ^ n) : Below n (x - y) := by
  rw [below_iff_within]
  rw [abs_le] at h
  exact within_sub (held_two_pow hn).neg (held_two_pow hn) hx hy h.1 h.2

lemma below_mul (hn : n < top α) (hx : IsFinite x) (hy : IsFinite y)
    (h : |val x * val y| ≤ 2 ^ n) : Below n (x * y) := by
  rw [below_iff_within]
  rw [abs_le] at h
  exact within_mul (held_two_pow hn).neg (held_two_pow hn) hx hy h.1 h.2

lemma below_div (hn : n < top α) (hx : IsFinite x) (hy : IsFinite y) (hy0 : val y ≠ 0)
    (h : |val x / val y| ≤ 2 ^ n) : Below n (x / y) := by
  rw [below_iff_within]
  rw [abs_le] at h
  exact within_div (held_two_pow hn).neg (held_two_pow hn) hx hy hy0 h.1 h.2

lemma Below.add (hx : Below k x) (hy : Below l y) (hk : k < n) (hl : l < n) (hn : n < top α) :
    Below n (x + y) := by
  have hk' := two_mul_two_pow_le hk
  have hl' := two_mul_two_pow_le hl
  apply below_add hn hx.1 hy.1
  calc |val x + val y| ≤ |val x| + |val y| := abs_add_le _ _
    _ ≤ 2 ^ n := by linarith [hx.2, hy.2]

lemma Below.sub (hx : Below k x) (hy : Below l y) (hk : k < n) (hl : l < n) (hn : n < top α) :
    Below n (x - y) := by
  have hk' := two_mul_two_pow_le hk
  have hl' := two_mul_two_pow_le hl
  apply below_sub hn hx.1 hy.1
  calc |val x - val y| ≤ |val x| + |val y| := abs_sub _ _
    _ ≤ 2 ^ n := by linarith [hx.2, hy.2]

lemma Below.mul (hx : Below k x) (hy : Below l y) (hkl : k + l ≤ n) (hn : n < top α) :
    Below n (x * y) := by
  apply below_mul hn hx.1 hy.1
  calc |val x * val y| = |val x| * |val y| := abs_mul _ _
    _ ≤ 2 ^ k * 2 ^ l := mul_le_mul hx.2 hy.2 (abs_nonneg _) (by positivity)
    _ ≤ 2 ^ n := by
      rw [← pow_add]
      exact pow_le_pow_right₀ (by norm_num) hkl

lemma Below.neg (hx : Below k x) : Below k (-x) := by
  obtain ⟨hfinite, hval⟩ := finite_neg hx.1
  rw [Below, hval, abs_neg]
  exact ⟨hfinite, hx.2⟩

/-! ## Patterns -/

/-- The size of the pattern of a power of two. -/
def powerSize (α : Type) [Packed α] (k : ℕ) : ℕ :=
  (k + (formatOf α).exponentBias) * 2 ^ (formatOf α).mantissaBitsWithoutImplicit

lemma magnitude_powerSize (k : ℕ) : magnitude (formatOf α) (powerSize α k) = 2 ^ k := by
  have hbias : 0 < (formatOf α).exponentBias := exponentBias_pos Packed.two_le_exponentBits
  rw [powerSize, ← Nat.add_zero (_ * _), magnitude_mul_add (Nat.two_pow_pos _), fieldsValue,
    if_neg (by omega), Nat.cast_zero, add_zero, ← zpow_natCast, ← zpow_natCast,
    ← zpow_add₀ (by norm_num), minExponent_eq]
  congr 1
  omega

lemma powerSize_lt (hk : k < top α) : powerSize α k < infinitySize (formatOf α) := by
  rw [← magnitude_strictMono.lt_iff_lt (α := ℕ), magnitude_powerSize,
    magnitude_infinitySize Packed.two_le_exponentBits]
  exact pow_lt_pow_right₀ (by norm_num) hk

lemma finite_iff_size_lt : IsFinite x ↔ size (Packed.pattern x) < infinitySize (formatOf α) :=
  isFinite_unpack_iff _

lemma IsFinite.abs_val_eq (h : IsFinite x) :
    |val x| = magnitude (formatOf α) (size (Packed.pattern x)) :=
  abs_value_unpack _ (finite_iff_size_lt.mp h)

/-- Below a power of two in size is at or below its pattern. -/
lemma below_iff_size_le (hk : k < top α) :
    Below k x ↔ size (Packed.pattern x) ≤ powerSize α k := by
  constructor
  · rintro ⟨hfinite, hval⟩
    rw [hfinite.abs_val_eq, ← magnitude_powerSize (α := α)] at hval
    exact magnitude_strictMono.le_iff_le.mp hval
  · intro h
    have hfinite : IsFinite x := finite_iff_size_lt.mpr (h.trans_lt (powerSize_lt hk))
    refine ⟨hfinite, ?_⟩
    rw [hfinite.abs_val_eq, ← magnitude_powerSize (α := α)]
    exact magnitude_strictMono.monotone h

/-- A finite pattern and the number that is made of it stand for the same real. -/
lemma unpacked_ofPattern {b : BitVec (formatOf α).numBits}
    (h : size b < infinitySize (formatOf α)) :
    unpacked (Packed.ofPattern b : α) = unpack _ b := by
  rw [← isFinite_unpack_iff] at h
  rw [unpacked, Packed.pattern_ofPattern]
  exact unpack_pack Packed.two_le_exponentBits (canonical_unpack b) h
    (abs_value_unpack_lt Packed.two_le_exponentBits b h)

lemma isFinite_ofPattern {b : BitVec (formatOf α).numBits}
    (h : size b < infinitySize (formatOf α)) : IsFinite (Packed.ofPattern b : α) := by
  rw [IsFinite, unpacked_ofPattern h]
  exact (isFinite_unpack_iff b).mpr h

lemma abs_val_ofPattern {b : BitVec (formatOf α).numBits}
    (h : size b < infinitySize (formatOf α)) :
    |val (Packed.ofPattern b : α)| = magnitude (formatOf α) (size b) := by
  rw [val, unpacked_ofPattern h, abs_value_unpack b h]

lemma below_ofPattern {b : BitVec (formatOf α).numBits} (hk : k < top α)
    (h : size b ≤ powerSize α k) : Below k (Packed.ofPattern b : α) := by
  have hfinite := h.trans_lt (powerSize_lt hk)
  refine ⟨isFinite_ofPattern hfinite, ?_⟩
  rw [abs_val_ofPattern hfinite, ← magnitude_powerSize (α := α)]
  exact magnitude_strictMono.monotone h

end Packed

/-! ## Patterns of single and double precision -/

lemma toNat_and_single (n : UInt32) : (n &&& 0x7FFFFFFF).toNat = n.toNat % 2 ^ 31 := by
  rw [UInt32.toNat_and]
  exact Nat.and_two_pow_sub_one_eq_mod _ 31

lemma toNat_and_double (n : UInt64) : (n &&& 0x7FFFFFFFFFFFFFFF).toNat = n.toNat % 2 ^ 63 := by
  rw [UInt64.toNat_and]
  exact Nat.and_two_pow_sub_one_eq_mod _ 63

lemma unpack_pack_infinity (s : Sign) :
    unpack .binary32 (pack .binary32 (.infinity s)) = .infinity s := unpack_packedInfinity

lemma unpack_pack_zero (s : Sign) : unpack .binary32 (pack .binary32 (.zero s)) = .zero s :=
  unpack_packedZero

lemma unpacked_add (x y : Float32) : unpacked (x + y) =
    unpack .binary32 (pack .binary32 (.add .binary32 (unpacked x) (unpacked y))) :=
  congrArg (unpack _) (Packed.pattern_add x y)

lemma unpacked_sub (x y : Float32) : unpacked (x - y) =
    unpack .binary32 (pack .binary32 (.sub .binary32 (unpacked x) (unpacked y))) :=
  congrArg (unpack _) (Packed.pattern_sub x y)

lemma unpacked_mul (x y : Float32) : unpacked (x * y) =
    unpack .binary32 (pack .binary32 (.mul .binary32 (unpacked x) (unpacked y))) :=
  congrArg (unpack _) (Packed.pattern_mul x y)

lemma unpacked_div (x y : Float32) : unpacked (x / y) =
    unpack .binary32 (pack .binary32 (.div .binary32 (unpacked x) (unpacked y))) :=
  congrArg (unpack _) (Packed.pattern_div x y)

lemma unpacked_sqrt (x : Float32) : unpacked x.sqrt =
    unpack .binary32 (pack .binary32 (.sqrt .binary32 (unpacked x))) := rfl

lemma isFinite_iff {x : Float32} : x.isFinite = true ↔ IsFinite x := Iff.rfl

lemma IsFinite.isNaN_eq_false {x : Float32} (h : IsFinite x) : x.isNaN = false := by
  show (unpacked x).isNaN = false
  obtain ⟨s, hu⟩ | ⟨s, m, e, hm, hu⟩ := h.unpacked_cases <;> rw [hu] <;> rfl

lemma isFinite_iff_toNat_lt {x : Float32} :
    IsFinite x ↔ (x.toBits &&& 0x7FFFFFFF).toNat < 0x7F800000 := by
  rw [toNat_and_single]
  exact finite_iff_size_lt

lemma below_iff_toNat_le {k : ℕ} (hk : k < 128) {x : Float32} :
    Below k x ↔ (x.toBits &&& 0x7FFFFFFF).toNat ≤ (k + 127) * 2 ^ 23 := by
  rw [toNat_and_single]
  exact below_iff_size_le hk

lemma below_double_iff_toNat_le {k : ℕ} (hk : k < 1024) {x : Float} :
    Below k x ↔ (x.toBits &&& 0x7FFFFFFFFFFFFFFF).toNat ≤ (k + 1023) * 2 ^ 52 := by
  rw [toNat_and_double]
  exact below_iff_size_le hk

lemma below_ofBits {k : ℕ} (hk : k < 128) {n : UInt32} (h : n.toNat % 2 ^ 31 ≤ (k + 127) * 2 ^ 23) :
    Below k (Float32.ofBits n) :=
  below_ofPattern (α := Float32) (b := n.toBitVec) hk h

lemma below_double_ofBits {k : ℕ} (hk : k < 1024) {n : UInt64}
    (h : n.toNat % 2 ^ 63 ≤ (k + 1023) * 2 ^ 52) : Below k (Float.ofBits n) :=
  below_ofPattern (α := Float) (b := n.toBitVec) hk h

/-- A finite pattern survives the passage through the number. -/
lemma toBits_ofBits {n : UInt32} (h : n.toNat % 2 ^ 31 < 0x7F800000) :
    (Float32.ofBits n).toBits = n :=
  UInt32.toBitVec_inj.mp (pack_unpack (f := .binary32) (b := n.toBitVec) (by decide) h)

lemma toBits_ofBits_double {n : UInt64} (h : n.toNat % 2 ^ 63 < 0x7FF0000000000000) :
    (Float.ofBits n).toBits = n :=
  UInt64.toBitVec_inj.mp (pack_unpack (f := .binary64) (b := n.toBitVec) (by decide) h)

/-- A number is told by its pattern. -/
lemma toBits_injective {x y : Float32} (h : x.toBits = y.toBits) : x = y := by
  obtain ⟨⟨n, hn⟩⟩ := x
  obtain ⟨⟨m, hm⟩⟩ := y
  cases h
  rfl

lemma ofBits_toBits {x : Float32} (h : IsFinite x) : Float32.ofBits x.toBits = x :=
  toBits_injective (toBits_ofBits (finite_iff_size_lt.mp h))

lemma val_of_lt {x : Float32} (h : IsFinite x) (hs : x.toBits.toNat < 2 ^ 31) :
    val x = magnitude .binary32 x.toBits.toNat :=
  value_unpack_of_lt (Packed.pattern x) hs (finite_iff_size_lt.mp h)

lemma val_of_le {x : Float32} (h : IsFinite x) (hs : 2 ^ 31 ≤ x.toBits.toNat) :
    val x = -magnitude .binary32 (x.toBits &&& 0x7FFFFFFF).toNat := by
  rw [toNat_and_single]
  exact value_unpack_of_le (Packed.pattern x) hs (finite_iff_size_lt.mp h)

lemma abs_val_single {x : Float32} (h : IsFinite x) :
    |val x| = magnitude .binary32 (x.toBits &&& 0x7FFFFFFF).toNat := by
  rw [toNat_and_single]
  exact h.abs_val_eq

/-- The real of a constant without a sign. -/
lemma val_ofBits_of_lt {n : UInt32} (h : n.toNat < 0x7F800000) :
    val (Float32.ofBits n) = magnitude .binary32 n.toNat := by
  have hs : n.toNat < 2 ^ 31 := by omega
  have hsize : size (f := formatOf Float32) n.toBitVec < infinitySize (formatOf Float32) :=
    (Nat.mod_le _ _).trans_lt h
  have hunpacked := unpacked_ofPattern (α := Float32) (b := n.toBitVec) hsize
  rw [val]
  exact (congrArg value hunpacked).trans (value_unpack_of_lt (f := .binary32) n.toBitVec hs hsize)

/-- The real of a constant with a sign. -/
lemma val_ofBits_of_le {n : UInt32} (hs : 2 ^ 31 ≤ n.toNat)
    (h : n.toNat % 2 ^ 31 < 0x7F800000) :
    val (Float32.ofBits n) = -magnitude .binary32 (n.toNat % 2 ^ 31) := by
  have hunpacked := unpacked_ofPattern (α := Float32) (b := n.toBitVec) h
  rw [val]
  exact (congrArg value hunpacked).trans (value_unpack_of_le (f := .binary32) n.toBitVec hs h)

/-! ## Small constants -/

lemma below_zero : Below 0 (0 : Float32) :=
  (below_iff_toNat_le (by norm_num)).mpr (by decide)

lemma below_one : Below 0 (1 : Float32) :=
  (below_iff_toNat_le (by norm_num)).mpr (by decide)

lemma below_two : Below 1 (2 : Float32) :=
  (below_iff_toNat_le (by norm_num)).mpr (by decide)

lemma magnitude_one : magnitude .binary32 0x3F800000 = 1 := by
  norm_num [magnitude_binary32]

lemma val_zero : val (0 : Float32) = 0 := by
  have hbits : (0 : Float32).toBits.toNat = 0 := by decide
  rw [val_of_lt below_zero.1 (by rw [hbits]; norm_num), hbits, magnitude_zero]

lemma val_one : val (1 : Float32) = 1 := by
  have hbits : (1 : Float32).toBits.toNat = 0x3F800000 := by decide
  rw [val_of_lt below_one.1 (by rw [hbits]; norm_num), hbits, magnitude_one]

/-- Single precision holds the fractions over a power of two with a numerator of 24 bits. -/
lemma held_dyadic {b : ℝ} (m : ℤ) (k : ℕ) (hb : b = m / 2 ^ k) (hm : |m| ≤ 2 ^ 24)
    (hk : k ≤ 149) : Held Float32 b := by
  subst hb
  have hmin : (formatOf Float32).minExponent = -149 := rfl
  have hbits : (formatOf Float32).mantissaBits = 24 := rfl
  have hlimit : limit (formatOf Float32) = 2 ^ 128 := rfl
  constructor
  · refine ⟨m, -k, by rwa [hbits], by omega, ?_⟩
    rw [zpow_neg, zpow_natCast, div_eq_mul_inv]
  · have hm' : |(m : ℝ)| ≤ 2 ^ 24 := by exact_mod_cast hm
    rw [hlimit, abs_div, abs_of_pos (by positivity : (0 : ℝ) < 2 ^ k)]
    calc |(m : ℝ)| / 2 ^ k ≤ |(m : ℝ)| := div_le_self (abs_nonneg _) (one_le_pow₀ (by norm_num))
      _ ≤ 2 ^ 24 := hm'
      _ < 2 ^ 128 := by norm_num

lemma held_zpow {k : ℤ} (hlow : -149 ≤ k) (hhigh : k < 128) : Held Float32 (2 ^ k) := by
  refine ⟨onGrid_zpow hlow, ?_⟩
  have hlimit : limit (formatOf Float32) = 2 ^ (128 : ℤ) := rfl
  rw [hlimit, abs_of_pos (by positivity)]
  exact zpow_lt_zpow_right₀ (by norm_num) hhigh

lemma held_zero : Held Float32 0 := held_dyadic 0 0 (by norm_num) (by norm_num) (by norm_num)

lemma within_sqrt {x : Float32} {lo hi : ℝ} (hlo : Held Float32 lo) (hhi : Held Float32 hi)
    (hx : IsFinite x) (h : 0 ≤ val x) (h₁ : lo ≤ √(val x)) (h₂ : √(val x) ≤ hi) :
    Within lo hi x.sqrt := by
  have hrounds := rounds_sqrt (f := formatOf Float32) h hx
  exact within_of_rounded hlo hhi h₁ h₂
    (finite_of_rounds rfl hrounds (abs_rounded_lt_limit hlo hhi h₁ h₂))

/-! ## Zeros

A number within `0` and `0` is a zero of either sign. -/

section Zeros

variable {x y : Float32}

lemma Within.val_eq_zero (h : Within 0 0 x) : val x = 0 := le_antisymm h.2.2 h.2.1

lemma within_zero : Within 0 0 (0 : Float32) := ⟨below_zero.1, val_zero.ge, val_zero.le⟩

lemma within_zero_add (hx : Within 0 0 x) (hy : Within 0 0 y) : Within 0 0 (x + y) := by
  apply within_add held_zero held_zero hx.1 hy.1 <;> simp [hx.val_eq_zero, hy.val_eq_zero]

lemma within_zero_sub (hx : Within 0 0 x) (hy : Within 0 0 y) : Within 0 0 (x - y) := by
  apply within_sub held_zero held_zero hx.1 hy.1 <;> simp [hx.val_eq_zero, hy.val_eq_zero]

lemma within_zero_mul (hx : IsFinite x) (hy : Within 0 0 y) : Within 0 0 (x * y) := by
  apply within_mul held_zero held_zero hx hy.1 <;> simp [hy.val_eq_zero]

lemma within_zero_sqrt (hx : Within 0 0 x) : Within 0 0 x.sqrt := by
  apply within_sqrt held_zero held_zero hx.1 hx.2.1 <;> simp [hx.val_eq_zero]

end Zeros

/-! ## Chains of bounds

The rules for powers of two, with the exponents of the limits written out. -/

section Single

variable {x y : Float32} {k l n : ℕ}

lemma Below.add_single (hx : Below k x) (hy : Below l y) (hk : k < n) (hl : l < n)
    (hn : n < 128) : Below n (x + y) := hx.add hy hk hl hn

lemma Below.sub_single (hx : Below k x) (hy : Below l y) (hk : k < n) (hl : l < n)
    (hn : n < 128) : Below n (x - y) := hx.sub hy hk hl hn

lemma Below.mul_single (hx : Below k x) (hy : Below l y) (hkl : k + l ≤ n) (hn : n < 128) :
    Below n (x * y) := hx.mul hy hkl hn

end Single

section Double

variable {x y : Float} {k l n : ℕ}

lemma Below.add_double (hx : Below k x) (hy : Below l y) (hk : k < n) (hl : l < n)
    (hn : n < 1024) : Below n (x + y) := hx.add hy hk hl hn

lemma Below.sub_double (hx : Below k x) (hy : Below l y) (hk : k < n) (hl : l < n)
    (hn : n < 1024) : Below n (x - y) := hx.sub hy hk hl hn

lemma Below.mul_double (hx : Below k x) (hy : Below l y) (hkl : k + l ≤ n) (hn : n < 1024) :
    Below n (x * y) := hx.mul hy hkl hn

end Double

end Arbor.Number
