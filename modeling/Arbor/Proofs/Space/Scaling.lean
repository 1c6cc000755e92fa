import Arbor.Proofs.Number.Scaling
import Arbor.Proofs.Space.Magnitude

/-!
# Vectors that differ by a power of two

A vector and its multiple by a power of two are normalized to the same vector, bit for bit, unless
the length of exactly one of them overflows (`normalize_eq_of_scaled`).  A length that is neither
lost nor infinite is the one that is found without a smallest unit (`Measured.val_length`), so it
scales with the vector, and its reciprocal scales against it.  A length that overflows has the
reciprocal zero, so the vector is normalized to zero (`null_normalize`).
-/

namespace Arbor

open Number

namespace Vec3

variable {a b : Vec3} {k : ℤ}

/-- The second vector is the first one multiplied by `2 ^ k` exactly. -/
structure Scaled (k : ℤ) (a b : Vec3) : Prop where
  x : Number.Scaled k a.x b.x
  y : Number.Scaled k a.y b.y
  z : Number.Scaled k a.z b.z

lemma Scaled.finite (h : Scaled k a b) : a.Finite := ⟨h.x.finite, h.y.finite, h.z.finite⟩

lemma Scaled.finite' (h : Scaled k a b) : b.Finite := ⟨h.x.finite', h.y.finite', h.z.finite'⟩

/-! ## Lengths without a smallest unit -/

/-- The square of a length, rounded after each step without a smallest unit. -/
noncomputable def floatedSquare (x y z : ℝ) : ℝ :=
  floated .binary32 (floated .binary32 (floated .binary32 (x * x) + floated .binary32 (y * y)) +
    floated .binary32 (z * z))

lemma floatedSquare_zpow_mul (k : ℤ) (x y z : ℝ) :
    floatedSquare (2 ^ k * x) (2 ^ k * y) (2 ^ k * z) = 2 ^ (2 * k) * floatedSquare x y z := by
  have hsquare : ∀ r : ℝ, 2 ^ k * r * (2 ^ k * r) = 2 ^ (2 * k) * (r * r) := by
    intro r
    rw [two_mul, zpow_add₀ (by norm_num)]
    ring
  simp only [floatedSquare, hsquare, floated_zpow_mul, ← mul_add]

lemma tracks_lengthSquared (ha : a.Finite) (h : IsFinite a.lengthSquared) :
    Tracks (-74) (floatedSquare (val a.x) (val a.y) (val a.z)) a.lengthSquared := by
  have hx := atLeast_square_zero ha.x
  have hy := atLeast_square_zero ha.y
  have hz := atLeast_square_zero ha.z
  obtain ⟨hxy, hzz⟩ := isFinite_of_add (hx.add_zero hy) hz h
  obtain ⟨hxx, hyy⟩ := isFinite_of_add hx hy hxy
  have hxtracks := tracks_mul ha.x ha.x hxx (mul_self_nonneg _)
  have hytracks := tracks_mul ha.y ha.y hyy (mul_self_nonneg _)
  have hztracks := tracks_mul ha.z ha.z hzz (mul_self_nonneg _)
  exact (hxtracks.add hytracks le_rfl hxy).add (hztracks.mono (by norm_num)) (by norm_num) h

/-- A length that is finite and not very small. -/
structure Measured (a : Vec3) : Prop where
  finite : a.Finite
  length : IsFinite a.length
  large : 2 ^ (-20 : ℤ) < val a.length

/-- A length that overflows. -/
lemma length_of_not_finite (ha : a.Finite) (h : ¬ IsFinite a.length) :
    unpacked a.length = .infinity .positive := by
  have hlength : AtLeast 0 a.length :=
    (atLeast_lengthSquared ha).sqrt held_zero.1 le_rfl (by norm_num)
  exact hlength.resolve_left fun hfinite => h hfinite.1

namespace Measured

variable (h : a.Measured)

include h

lemma isFinite_lengthSquared : IsFinite a.lengthSquared := by
  rcases atLeast_lengthSquared h.finite with ⟨hfinite, -⟩ | hinf
  · exact hfinite
  · have hroot : AtLeast (2 ^ (128 : ℤ)) a.length :=
      AtLeast.sqrt (.inr hinf) (onGrid_zpow (by decide)) (by positivity) le_rfl
    exact absurd h.length (not_isFinite_of_atLeast hroot)

/-- The length is far above where squares are lost. -/
lemma val_lengthSquared :
    val a.lengthSquared = floatedSquare (val a.x) (val a.y) (val a.z) ∧
      2 ^ (-20 : ℤ) < √(val a.lengthSquared) ∧
      val a.length = rounded .binary32 (√(val a.lengthSquared)) := by
  have htracks := tracks_lengthSquared h.finite h.isFinite_lengthSquared
  have hval : val a.length = rounded .binary32 (√(val a.lengthSquared)) :=
    val_of_rounds rfl (Number.rounds_sqrt htracks.nonneg htracks.finite) h.length
  have hroot : 2 ^ (-20 : ℤ) < √(val a.lengthSquared) := by
    by_contra hle
    have hrounded := rounded_single_le_zpow (by norm_num) (not_lt.mp hle)
    rw [← hval] at hrounded
    exact absurd h.large (not_lt.mpr hrounded)
  refine ⟨htracks.val_eq ?_, hroot, hval⟩
  have hsquare : (2 : ℝ) ^ (-74 : ℤ) ≤ (2 ^ (-20 : ℤ)) ^ 2 := by norm_num
  have hlt := Real.lt_sqrt (by positivity) |>.mp hroot
  linarith

lemma val_length :
    val a.length = floated .binary32 (√(floatedSquare (val a.x) (val a.y) (val a.z))) := by
  obtain ⟨hsquared, hroot, hval⟩ := h.val_lengthSquared
  rw [hval, ← hsquared]
  refine rounded_single (le_trans ?_ hroot.le)
  norm_num

lemma val_length_le : val a.length ≤ 2 ^ (64 : ℤ) := by
  obtain ⟨-, -, hval⟩ := h.val_lengthSquared
  have hlimit : |val a.lengthSquared| < 2 ^ (128 : ℤ) := h.isFinite_lengthSquared.abs_val_lt
  rw [hval]
  refine rounded_single_le_zpow (by norm_num) (Real.sqrt_le_iff.mpr ⟨by positivity, ?_⟩)
  calc val a.lengthSquared ≤ 2 ^ (128 : ℤ) := (le_abs_self _).trans hlimit.le
    _ = (2 ^ (64 : ℤ)) ^ 2 := by norm_num

/-- The reciprocal of a length has all of its bits. -/
lemma val_reciprocal : IsFinite (1 / a.length) ∧
    val (1 / a.length) = floated .binary32 (1 / val a.length) ∧ 0 < val (1 / a.length) := by
  have hlarge := h.large
  have hpos : 0 < val a.length := lt_trans (by positivity) hlarge
  have hlow : (2 : ℝ) ^ (-64 : ℤ) ≤ 1 / val a.length := by
    rw [zpow_neg, ← one_div]
    exact one_div_le_one_div_of_le hpos h.val_length_le
  have hhigh : 1 / val a.length ≤ 2 ^ (20 : ℤ) := by
    rw [one_div_le hpos (by positivity), one_div, ← zpow_neg]
    exact hlarge.le
  have hone : val (1 : Float32) / val a.length = 1 / val a.length := by rw [val_one]
  obtain ⟨hfinite, hle, -⟩ := within_div (held_zpow (by norm_num) (by norm_num))
    (held_zpow (by norm_num) (by norm_num)) below_one.1 h.length hpos.ne' (hone ▸ hlow)
    (hone ▸ hhigh)
  have hval : val (1 / a.length) = rounded .binary32 (val (1 : Float32) / val a.length) :=
    val_of_rounds (Packed.pattern_div 1 a.length) (rounds_div hpos.ne' below_one.1 h.length) hfinite
  refine ⟨hfinite, ?_, lt_of_lt_of_le (by positivity) hle⟩
  rw [hval, hone]
  exact rounded_single (le_trans (by norm_num) hlow)

lemma length_pos : 0 < a.length := by
  rw [lt_iff_val_lt below_zero.1 h.length, val_zero]
  exact lt_trans (by positivity) h.large

end Measured

/-! ## The same direction -/

lemma Measured.val_length_of_scaled (h : Scaled k a b) (ha : a.Measured) (hb : b.Measured) :
    val b.length = 2 ^ k * val a.length := by
  have hroot : √((2 : ℝ) ^ (2 * k)) = 2 ^ k := by
    rw [two_mul, zpow_add₀ (by norm_num), Real.sqrt_mul_self (by positivity)]
  rw [hb.val_length, ha.val_length, h.x.val_eq, h.y.val_eq, h.z.val_eq, floatedSquare_zpow_mul,
    Real.sqrt_mul (by positivity), hroot, floated_zpow_mul]

lemma Measured.val_reciprocal_of_scaled (h : Scaled k a b) (ha : a.Measured) (hb : b.Measured) :
    val (1 / b.length) = 2 ^ (-k) * val (1 / a.length) := by
  obtain ⟨-, hra, -⟩ := ha.val_reciprocal
  obtain ⟨-, hrb, -⟩ := hb.val_reciprocal
  have hinverse : 1 / (2 ^ k * val a.length) = 2 ^ (-k) * (1 / val a.length) := by
    rw [zpow_neg, one_div, one_div, mul_inv]
  rw [hrb, hra, ha.val_length_of_scaled h hb, hinverse, floated_zpow_mul]

lemma normalize_eq_of_measured (h : Scaled k a b) (ha : a.Measured) (hb : b.Measured) :
    a.normalize = b.normalize := by
  obtain ⟨hra, -, hra0⟩ := ha.val_reciprocal
  obtain ⟨hrb, -, hrb0⟩ := hb.val_reciprocal
  have hcoordinate : ∀ {x y : Float32}, Number.Scaled k x y →
      x * (1 / a.length) = y * (1 / b.length) := by
    intro x y hxy
    refine mul_eq_mul hxy.finite hra hxy.finite' hrb ?_ hxy.sign (sameSign_of_pos hra0 hrb0)
    rw [hxy.val_eq, ha.val_reciprocal_of_scaled h hb, mul_mul_mul_comm, ← zpow_add₀ (by norm_num),
      add_neg_cancel, zpow_zero, one_mul]
  rw [normalize, normalize, if_pos ha.length_pos, if_pos hb.length_pos, scale, scale,
    hcoordinate h.x, hcoordinate h.y, hcoordinate h.z]

/-! ## Lengths that overflow -/

lemma reciprocal_of_infinity {x : Float32} (h : unpacked x = .infinity .positive) : 1 / x = 0 := by
  apply pattern_injective
  rw [Packed.pattern_div]
  change Float.Model.UnpackedFloat.pack .binary32 (.div .binary32 (unpacked 1) (unpacked x)) = _
  rw [h]
  decide

lemma normalize_of_not_finite (ha : a.Finite) (h : ¬ IsFinite a.length) :
    a.normalize = a.scale 0 := by
  have hlength := length_of_not_finite ha h
  rw [normalize, if_pos (lt_of_infinity hlength below_zero.1), reciprocal_of_infinity hlength]

lemma normalize_eq_of_not_finite (h : Scaled k a b) (ha : ¬ IsFinite a.length)
    (hb : ¬ IsFinite b.length) : a.normalize = b.normalize := by
  have hcoordinate : ∀ {x y : Float32}, Number.Scaled k x y → x * 0 = y * 0 := fun hxy =>
    mul_eq_mul hxy.finite below_zero.1 hxy.finite' below_zero.1
      (by rw [val_zero, mul_zero, mul_zero]) hxy.sign rfl
  rw [normalize_of_not_finite h.finite ha, normalize_of_not_finite h.finite' hb, scale, scale,
    hcoordinate h.x, hcoordinate h.y, hcoordinate h.z]

/-- **Directions.** A vector and its multiple by a power of two are normalized to the same vector,
bit for bit, if neither is very short and the length of both or of neither overflows. -/
theorem normalize_eq_of_scaled (h : Scaled k a b) (ha : IsFinite a.length → a.Measured)
    (hb : IsFinite b.length → b.Measured) (hab : IsFinite a.length ↔ IsFinite b.length) :
    a.normalize = b.normalize := by
  by_cases hfinite : IsFinite a.length
  · exact normalize_eq_of_measured h (ha hfinite) (hb (hab.mp hfinite))
  · exact normalize_eq_of_not_finite h hfinite fun hfinite' => hfinite (hab.mpr hfinite')

/-- A vector whose length overflows is normalized to zero. -/
lemma null_normalize (ha : a.Finite) (h : ¬ IsFinite a.length) : a.normalize.Null := by
  rw [normalize_of_not_finite ha h]
  exact ⟨within_zero_mul ha.x within_zero, within_zero_mul ha.y within_zero,
    within_zero_mul ha.z within_zero⟩

lemma Null.cross (ha : a.Finite) (hb : b.Null) : (a.cross b).Null := by
  exact ⟨within_zero_sub (within_zero_mul ha.y hb.z) (within_zero_mul ha.z hb.y),
    within_zero_sub (within_zero_mul ha.z hb.x) (within_zero_mul ha.x hb.z),
    within_zero_sub (within_zero_mul ha.x hb.y) (within_zero_mul ha.y hb.x)⟩

end Vec3

end Arbor
