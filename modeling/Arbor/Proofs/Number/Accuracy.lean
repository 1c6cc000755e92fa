import Arbor.Proofs.Number.Conversion
import Arbor.Proofs.Number.ArcCosine

/-!
# Accuracy of computed numbers

`Approx ε b r x` says that `x` is finite and within `ε` of the real `r`, which is at most `b` in
size.  An operation adds up the errors of its arguments and half a unit of its own result
(`Approx.add` and its siblings), so the error of a formula is found by following the formula.  The
bound `b` is there to know the unit.

The passages between single and double precision are bounded likewise: widening is exact
(`val_widen`), and narrowing errs by one unit at most (`Approx.narrow`).
-/

namespace Arbor.Number

open Float.Model (UnpackedFloat)
open Float.Model.UnpackedFloat

section Packed

variable {α : Type} [Packed α] {x y : α}

/-- Half of the unit of the numbers from one to two. -/
noncomputable def roundoff (α : Type) [Packed α] : ℝ := 2 ^ (-(formatOf α).mantissaBits : ℤ)

lemma roundoff_pos : 0 < roundoff α := by
  unfold roundoff
  positivity

/-- The powers of two whose size a format resolves fully, and that leave room below its limit. -/
def Resolved (α : Type) [Packed α] (n : ℤ) : Prop :=
  (formatOf α).minExponent ≤ n + 1 - (formatOf α).mantissaBits ∧ n + 1 < top α

instance (n : ℤ) : Decidable (Resolved α n) := inferInstanceAs (Decidable (_ ∧ _))

/-- Rounding moves a real below a power of two by half of the unit below that power. -/
lemma abs_rounded_sub_le_roundoff {r : ℝ} {n : ℤ} (hn : Resolved α n) (h : |r| < 2 ^ (n + 1)) :
    |rounded (formatOf α) r - r| ≤ 2 ^ n * roundoff α := by
  rcases eq_or_ne r 0 with rfl | hr
  · rw [rounded_zero, sub_zero, abs_zero]
    exact mul_nonneg (by positivity) roundoff_pos.le
  have hunit : unitExponent (formatOf α) r ≤ n + 1 - (formatOf α).mantissaBits :=
    unitExponent_le_of_lt _ hr hn.1 (by rwa [sub_add_cancel])
  calc |rounded (formatOf α) r - r| ≤ 2 ^ unitExponent (formatOf α) r / 2 :=
        abs_rounded_sub_le _ r
    _ ≤ 2 ^ (n + 1 - (formatOf α).mantissaBits) / 2 := by
        gcongr
        norm_num
    _ = 2 ^ n * roundoff α := by
        rw [roundoff, sub_eq_add_neg, zpow_add₀ (by norm_num), zpow_add_one₀ (by norm_num)]
        ring

lemma abs_rounded_lt_of_abs_lt {r : ℝ} {n : ℤ} (hn : Resolved α n) (h : |r| < 2 ^ (n + 1)) :
    |rounded (formatOf α) r| < limit (formatOf α) := by
  have hpow : (2 : ℝ) ^ (n + 1) ≤ 2 ^ (top α - 1) := by
    rw [← zpow_natCast]
    apply zpow_le_zpow_right₀ (by norm_num)
    have := hn.2
    omega
  have htop : 0 < top α := Nat.two_pow_pos _
  exact abs_rounded_lt_of_abs_le (n := top α - 1) (by omega) (h.le.trans hpow)

/-- A real between two powers of two has a leading power there. -/
lemma exists_leading_power {r : ℝ} {a b : ℤ} (ha : 2 ^ a ≤ r) (hb : r < 2 ^ b) :
    ∃ k : ℤ, a ≤ k ∧ k < b ∧ (2 : ℝ) ^ k ≤ r ∧ r < 2 ^ k * 2 := by
  have hpos : 0 < r := lt_of_lt_of_le (by positivity) ha
  have h₁ : (2 : ℝ) ^ Int.log 2 r ≤ r := by
    exact_mod_cast Int.zpow_log_le_self (b := 2) (by norm_num) hpos
  have h₂ : r < 2 ^ (Int.log 2 r + 1) := by
    exact_mod_cast Int.lt_zpow_succ_log_self (b := 2) (by norm_num) r
  have hlow := (zpow_lt_zpow_iff_right₀ (by norm_num : (1 : ℝ) < 2)).mp (ha.trans_lt h₂)
  have hhigh := (zpow_lt_zpow_iff_right₀ (by norm_num : (1 : ℝ) < 2)).mp (h₁.trans_lt hb)
  rw [zpow_add_one₀ (by norm_num)] at h₂
  exact ⟨_, by omega, hhigh, h₁, h₂⟩

/-! ## Errors of operations -/

/-- A finite number within `ε` of a real that is at most `b` in size. -/
def Approx (ε b r : ℝ) (x : α) : Prop := IsFinite x ∧ |r| ≤ b ∧ |val x - r| ≤ ε

variable {ε ε' δ b b' c r s : ℝ} {n : ℤ}

lemma IsFinite.approx (h : IsFinite x) (hb : |val x| ≤ b) : Approx 0 b (val x) x :=
  ⟨h, hb, by simp⟩

lemma Approx.mono (h : Approx ε b r x) (hε : ε ≤ ε') (hb : b ≤ b') : Approx ε' b' r x :=
  ⟨h.1, h.2.1.trans hb, h.2.2.trans hε⟩

/-- A smaller bound of the real that is known from elsewhere. -/
lemma Approx.cap (h : Approx ε b r x) (hb : |r| ≤ b') : Approx ε b' r x := ⟨h.1, hb, h.2.2⟩

/-- The same number as an approximation of a real nearby. -/
lemma Approx.shift (h : Approx ε b r x) (hs : |r - s| ≤ δ) (hb : |s| ≤ b') :
    Approx (ε + δ) b' s x := by
  refine ⟨h.1, hb, ?_⟩
  calc |val x - s| ≤ |val x - r| + |r - s| := abs_sub_le _ _ _
    _ ≤ ε + δ := add_le_add h.2.2 hs

lemma Approx.abs_val_le (h : Approx ε b r x) : |val x| ≤ b + ε := by
  calc |val x| ≤ |r| + |val x - r| := by
        rw [← sub_le_iff_le_add']
        exact abs_sub_abs_le_abs_sub _ _
    _ ≤ b + ε := add_le_add h.2.1 h.2.2

/-- An operation that rounds a real near the wanted one. -/
lemma approx_of_rounded {z : α} {t : ℝ} (hn : Resolved α n) (hr : |r| ≤ b) (ht : |t - r| ≤ ε)
    (hz : |rounded (formatOf α) t| < limit (formatOf α) →
      IsFinite z ∧ val z = rounded (formatOf α) t) (h : b + ε < 2 ^ (n + 1)) :
    Approx (ε + 2 ^ n * roundoff α) b r z := by
  have hsize : |t| < 2 ^ (n + 1) := by
    have := abs_sub_abs_le_abs_sub t r
    linarith
  obtain ⟨hfinite, hval⟩ := hz (abs_rounded_lt_of_abs_lt hn hsize)
  refine ⟨hfinite, hr, ?_⟩
  rw [hval]
  calc |rounded (formatOf α) t - r| ≤ |rounded (formatOf α) t - t| + |t - r| := abs_sub_le _ _ _
    _ ≤ ε + 2 ^ n * roundoff α := by linarith [abs_rounded_sub_le_roundoff hn hsize]

lemma Approx.add (hx : Approx ε b r x) (hy : Approx δ c s y) (n : ℤ) (hn : Resolved α n)
    (h : b + c + (ε + δ) < 2 ^ (n + 1)) :
    Approx (ε + δ + 2 ^ n * roundoff α) (b + c) (r + s) (x + y) := by
  refine approx_of_rounded hn ((abs_add_le r s).trans (add_le_add hx.2.1 hy.2.1)) ?_
    (finite_add hx.1 hy.1) h
  calc |val x + val y - (r + s)| = |(val x - r) + (val y - s)| := by ring_nf
    _ ≤ ε + δ := (abs_add_le _ _).trans (add_le_add hx.2.2 hy.2.2)

lemma Approx.sub (hx : Approx ε b r x) (hy : Approx δ c s y) (n : ℤ) (hn : Resolved α n)
    (h : b + c + (ε + δ) < 2 ^ (n + 1)) :
    Approx (ε + δ + 2 ^ n * roundoff α) (b + c) (r - s) (x - y) := by
  refine approx_of_rounded hn ((abs_sub r s).trans (add_le_add hx.2.1 hy.2.1)) ?_
    (finite_sub hx.1 hy.1) h
  calc |val x - val y - (r - s)| = |(val x - r) - (val y - s)| := by ring_nf
    _ ≤ ε + δ := (abs_sub _ _).trans (add_le_add hx.2.2 hy.2.2)

/-- The error of an exact product. -/
lemma abs_mul_sub_mul_le {p q : ℝ} (hr : |r| ≤ b) (hs : |s| ≤ c) (hp : |p - r| ≤ ε)
    (hq : |q - s| ≤ δ) : |p * q - r * s| ≤ b * δ + c * ε + ε * δ := by
  have hb := (abs_nonneg r).trans hr
  have hc := (abs_nonneg s).trans hs
  have hε := (abs_nonneg _).trans hp
  calc |p * q - r * s| = |r * (q - s) + s * (p - r) + (p - r) * (q - s)| := by ring_nf
    _ ≤ |r| * |q - s| + |s| * |p - r| + |p - r| * |q - s| := by
        rw [← abs_mul, ← abs_mul, ← abs_mul]
        exact (abs_add_le _ _).trans (add_le_add_left (abs_add_le _ _) _)
    _ ≤ b * δ + c * ε + ε * δ := by gcongr

lemma Approx.mul (hx : Approx ε b r x) (hy : Approx δ c s y) (n : ℤ) (hn : Resolved α n)
    (h : b * c + (b * δ + c * ε + ε * δ) < 2 ^ (n + 1)) :
    Approx (b * δ + c * ε + ε * δ + 2 ^ n * roundoff α) (b * c) (r * s) (x * y) := by
  refine approx_of_rounded hn ?_ (abs_mul_sub_mul_le hx.2.1 hy.2.1 hx.2.2 hy.2.2)
    (finite_mul hx.1 hy.1) h
  rw [abs_mul]
  exact mul_le_mul hx.2.1 hy.2.1 (abs_nonneg _) ((abs_nonneg _).trans hx.2.1)

lemma Approx.neg (hx : Approx ε b r x) : Approx ε b (-r) (-x) := by
  obtain ⟨hfinite, hval⟩ := finite_neg hx.1
  refine ⟨hfinite, by rw [abs_neg]; exact hx.2.1, ?_⟩
  rw [hval, neg_sub_neg, abs_sub_comm]
  exact hx.2.2

end Packed

@[simp] lemma roundoff_single : roundoff Float32 = 1 / 2 ^ 24 := by
  have h : roundoff Float32 = 2 ^ (-24 : ℤ) := rfl
  rw [h, zpow_neg, one_div]
  norm_num

@[simp] lemma roundoff_double : roundoff Float = 1 / 2 ^ 53 := by
  have h : roundoff Float = 2 ^ (-53 : ℤ) := rfl
  rw [h, zpow_neg, one_div]
  norm_num

/-- Taking the size of an unpacked number leaves it alone or turns its sign. -/
lemma abs_unpacked {u : UnpackedFloat} (hu : u.isFinite = true) :
    (u.abs = u ∧ 0 ≤ value u) ∨ (u.abs = u.neg ∧ value u ≤ 0) := by
  match u with
  | .zero .positive => exact .inl ⟨rfl, (value_zero _).ge⟩
  | .zero .negative => exact .inr ⟨rfl, (value_zero _).le⟩
  | .finite .positive m e hm =>
    refine .inl ⟨rfl, ?_⟩
    rw [value_positive]
    positivity
  | .finite .negative m e hm =>
    refine .inr ⟨rfl, ?_⟩
    rw [value_negative, neg_nonpos]
    positivity
  | .infinity _ | .notANumber => cases hu

lemma finite_abs {x : Float32} (hx : IsFinite x) : IsFinite x.abs ∧ val x.abs = |val x| := by
  have hcanonical := canonical_unpacked x
  have hlimit := hx.abs_val_lt
  have hgrid := hx.rounded_val
  rcases abs_unpacked hx with ⟨habs, hsign⟩ | ⟨habs, hsign⟩
  · have h := finite_of_rounds (z := x.abs) (by rw [← habs]; rfl) (hcanonical.rounds hx)
      (by rw [← val, hgrid]; exact hlimit)
    rw [← val, hgrid] at h
    have hsize : |val x| = val x := abs_of_nonneg hsign
    rwa [hsize]
  · have h := finite_of_rounds (z := x.abs) (u := (unpacked x).neg) (by rw [← habs]; rfl)
      (hcanonical.neg.rounds (by rwa [isFinite_neg]))
      (by rw [value_neg, ← val, rounded_neg, hgrid, abs_neg]; exact hlimit)
    rw [value_neg, ← val, rounded_neg, hgrid] at h
    have hsize : |val x| = -val x := abs_of_nonpos hsign
    rwa [hsize]

/-- The root of a number that stays away from zero. -/
lemma Approx.sqrt {x : Float32} {ε b c r : ℝ} (hx : Approx ε b r x) (hc : 0 < c)
    (hr : c ^ 2 + ε ≤ r) (n : ℤ) (hn : Resolved Float32 n)
    (h : √b + ε / (2 * c) < 2 ^ (n + 1)) :
    Approx (ε / (2 * c) + 2 ^ n / 2 ^ 24) √b √r x.sqrt := by
  have hε : 0 ≤ ε := (abs_nonneg _).trans hx.2.2
  have hx' : c ^ 2 ≤ val x := by
    have := (abs_le.mp hx.2.2).1
    linarith
  have hx0 : 0 ≤ val x := (sq_nonneg c).trans hx'
  have hr0 : 0 ≤ r := by linarith [sq_nonneg c]
  have hsum : 2 * c ≤ √(val x) + √r := by
    have h₁ : c ≤ √(val x) := Real.le_sqrt_of_sq_le hx'
    have h₂ : c ≤ √r := Real.le_sqrt_of_sq_le (by linarith)
    linarith
  -- The difference of two roots is that of the numbers by the sum of the roots.
  have hdiff : |√(val x) - √r| ≤ ε / (2 * c) := by
    have hprod : (√(val x) - √r) * (√(val x) + √r) = val x - r := by
      have h₁ := Real.mul_self_sqrt hx0
      have h₂ := Real.mul_self_sqrt hr0
      linarith
    rw [le_div_iff₀ (by positivity)]
    calc |√(val x) - √r| * (2 * c) ≤ |√(val x) - √r| * (√(val x) + √r) := by gcongr
      _ = |val x - r| := by
          rw [← hprod, abs_mul, abs_of_pos (lt_of_lt_of_le (by positivity) hsum)]
      _ ≤ ε := hx.2.2
  have happrox := approx_of_rounded (α := Float32) (z := x.sqrt) (b := √b) (r := √r) hn ?_ hdiff
    (finite_of_rounds rfl (rounds_sqrt (f := formatOf Float32) hx0 hx.1)) h
  · refine happrox.mono ?_ le_rfl
    rw [roundoff_single, mul_one_div]
  · rw [abs_of_nonneg (Real.sqrt_nonneg r)]
    exact Real.sqrt_le_sqrt ((le_abs_self r).trans hx.2.1)

/-! ## Widening -/

lemma val_double_of_lt {x : Float} (h : IsFinite x) (hs : x.toBits.toNat < 2 ^ 63) :
    val x = magnitude .binary64 x.toBits.toNat :=
  value_unpack_of_lt (Packed.pattern x) hs (finite_iff_size_lt.mp h)

lemma val_double_of_le {x : Float} (h : IsFinite x) (hs : 2 ^ 63 ≤ x.toBits.toNat) :
    val x = -magnitude .binary64 (x.toBits &&& 0x7FFFFFFFFFFFFFFF).toNat := by
  rw [toNat_and_double]
  exact value_unpack_of_le (Packed.pattern x) hs (finite_iff_size_lt.mp h)

/-- The real of a double constant without a sign. -/
lemma val_double_ofBits {n : UInt64} (h : n.toNat < 0x7FF0000000000000) :
    IsFinite (Float.ofBits n) ∧ val (Float.ofBits n) = magnitude .binary64 n.toNat := by
  have hs : n.toNat < 2 ^ 63 := by omega
  have hsize : size (f := formatOf Float) n.toBitVec < infinitySize (formatOf Float) :=
    (Nat.mod_le _ _).trans_lt h
  refine ⟨isFinite_ofPattern (α := Float) (b := n.toBitVec) hsize, ?_⟩
  have hunpacked := unpacked_ofPattern (α := Float) (b := n.toBitVec) hsize
  rw [val]
  exact (congrArg value hunpacked).trans (value_unpack_of_lt (f := .binary64) n.toBitVec hs hsize)

/-- The real of a double constant with a sign. -/
lemma val_double_ofBits_of_le {n : UInt64} (hs : 2 ^ 63 ≤ n.toNat)
    (h : n.toNat % 2 ^ 63 < 0x7FF0000000000000) : IsFinite (Float.ofBits n) ∧
      val (Float.ofBits n) = -magnitude .binary64 (n.toNat % 2 ^ 63) := by
  refine ⟨isFinite_ofPattern (α := Float) (b := n.toBitVec) h, ?_⟩
  have hunpacked := unpacked_ofPattern (α := Float) (b := n.toBitVec) h
  rw [val]
  exact (congrArg value hunpacked).trans (value_unpack_of_le (f := .binary64) n.toBitVec hs h)

/-- A normal single has the same magnitude as a double whose fraction is padded with zeros. -/
lemma magnitude_single_eq {n : ℕ} (h : 2 ^ 23 ≤ n) :
    magnitude .binary32 n = magnitude .binary64 (n * 2 ^ 29 + 896 * 2 ^ 52) := by
  have hfield : (n * 2 ^ 29 + 896 * 2 ^ 52) / 2 ^ 52 = n / 2 ^ 23 + 896 := by omega
  have hfraction : (n * 2 ^ 29 + 896 * 2 ^ 52) % 2 ^ 52 = n % 2 ^ 23 * 2 ^ 29 := by omega
  have hpos : 1 ≤ n / 2 ^ 23 := (Nat.le_div_iff_mul_le (by norm_num)).mpr (by omega)
  obtain ⟨e, he⟩ : ∃ e, n / 2 ^ 23 = e + 1 := ⟨n / 2 ^ 23 - 1, by omega⟩
  rw [magnitude_binary32, magnitude_binary64, hfield, hfraction, he, if_neg (by omega),
    if_neg (by omega), Nat.add_sub_cancel]
  have hexp : (-1074 : ℤ) + ((e + 1 + 896 - 1 : ℕ) : ℤ) = -149 + (e : ℤ) + (-29) := by omega
  rw [hexp, zpow_add₀ (by norm_num : (2 : ℝ) ≠ 0) (-149 + (e : ℤ))]
  push_cast
  norm_num
  ring

/-- Widening a positive normal single loses nothing. -/
lemma val_widen {y : Float32} (h₁ : 0x00800000 ≤ y.toBits.toNat) (h₂ : y.toBits.toNat < 0x7F800000) :
    IsFinite (widen y) ∧ val (widen y) = val y := by
  have hsign : (y.toBits &&& signBit).toUInt64 <<< 32 = 0 := by
    have hbit : y.toBits &&& signBit = 0 := by
      rw [← UInt32.toNat_inj, toNat_and_signBit, Nat.testBit_lt_two_pow (by omega)]
      rfl
    rw [hbit]
    rfl
  have hsize : (y.toBits &&& 0x7FFFFFFF).toNat = y.toBits.toNat := by
    rw [toNat_and_single, Nat.mod_eq_of_lt (by omega)]
  have hfinite : IsFinite y := by
    rw [isFinite_iff_toNat_lt, hsize]
    exact h₂
  obtain ⟨n, hn, hwiden⟩ := exists_widen_eq (y := y) (hsize.symm ▸ h₁) (hsize.symm ▸ h₂)
  rw [hsize] at hn
  obtain ⟨hwide, hval⟩ := val_double_ofBits (n := n) (by rw [hn]; omega)
  rw [hwiden, hsign, UInt64.or_zero, hval, hn, val_of_lt hfinite (by omega), magnitude_single_eq h₁]
  exact ⟨hwide, rfl⟩

/-! ## Narrowing -/

/-- One or minus one, by the leading bit of a pattern. -/
def signOf (negative : Bool) : ℝ := if negative then -1 else 1

lemma abs_signOf_mul (negative : Bool) (r : ℝ) : |signOf negative * r| = |r| := by
  cases negative <;> simp [signOf]

lemma val_double_eq {x : Float} (h : IsFinite x) : val x =
    signOf (x.toBits.toNat.testBit 63) *
      magnitude .binary64 (x.toBits &&& 0x7FFFFFFFFFFFFFFF).toNat := by
  have hlt := x.toBits.toNat_lt
  rcases lt_or_ge x.toBits.toNat (2 ^ 63) with hs | hs
  · rw [val_double_of_lt h hs, Nat.testBit_lt_two_pow hs, toNat_and_double, Nat.mod_eq_of_lt hs]
    simp [signOf]
  · rw [val_double_of_le h hs, Nat.testBit_of_two_pow_le_and_two_pow_add_one_gt hs hlt]
    simp [signOf]

/-- A finite size under the leading bit of a word. -/
lemma val_ofBits_or_sign {n s : UInt32} (h : n.toNat < 0x7F800000) :
    IsFinite (Float32.ofBits (n ||| (s &&& signBit))) ∧
      val (Float32.ofBits (n ||| (s &&& signBit))) =
        signOf (s.toNat.testBit 31) * magnitude .binary32 n.toNat := by
  have hsize := toNat_or_signBit n s
  rw [Nat.mod_eq_of_lt (by omega : n.toNat < 2 ^ 31)] at hsize
  have hfinite : (n ||| (s &&& signBit)).toNat % 2 ^ 31 < 0x7F800000 := by rwa [hsize]
  refine ⟨isFinite_ofPattern (α := Float32) (b := (n ||| (s &&& signBit)).toBitVec) hfinite, ?_⟩
  have hor : (n ||| (s &&& signBit)).toNat = n.toNat ||| (s.toNat.testBit 31).toNat * 2 ^ 31 := by
    rw [UInt32.toNat_or, toNat_and_signBit]
  cases hbit : s.toNat.testBit 31 with
  | false =>
    have hself : (n ||| (s &&& signBit)).toNat = n.toNat := by
      rw [hor, hbit]
      simp
    rw [val_ofBits_of_lt (by rw [hself]; exact h), hself]
    simp [signOf]
  | true =>
    have hle : 2 ^ 31 ≤ (n ||| (s &&& signBit)).toNat := by
      rw [hor, hbit, Bool.toNat_true, Nat.one_mul]
      exact Nat.right_le_or
    rw [val_ofBits_of_le hle hfinite, hsize]
    simp [signOf]

/-- The sizes of singles below two are at most one unit of the largest of them apart. -/
lemma magnitude_succ_sub_le {q : ℕ} (hq : q < 2 ^ 30) :
    magnitude .binary32 (q + 1) - magnitude .binary32 q ≤ 1 / 2 ^ 23 := by
  have hdiff : magnitude .binary32 (q + 1) - magnitude .binary32 q ≤ 2 ^ (-23 : ℤ) := by
    rw [magnitude_succ, magnitude]
    set r := q % 2 ^ Float.Model.Format.binary32.mantissaBitsWithoutImplicit
    have hfield : q / 2 ^ Float.Model.Format.binary32.mantissaBitsWithoutImplicit < 128 :=
      (Nat.div_lt_iff_lt_mul (by norm_num)).mpr hq
    set e := q / 2 ^ Float.Model.Format.binary32.mantissaBitsWithoutImplicit
    have hmin : Float.Model.Format.binary32.minExponent = -149 := rfl
    unfold fieldsValue
    rw [hmin]
    split_ifs
    · push_cast
      rw [add_mul, one_mul, add_sub_cancel_left]
      exact zpow_le_zpow_right₀ (by norm_num) (by norm_num)
    · push_cast
      rw [← add_assoc, add_mul _ (1 : ℝ), one_mul, add_sub_cancel_left]
      exact zpow_le_zpow_right₀ (by norm_num) (by omega)
  rwa [zpow_neg, ← one_div] at hdiff

/-- The size that narrowing makes of a normal one below two. -/
lemma abs_magnitude_shiftEven_sub_le {w : UInt64} (h₁ : 2 ^ 52 ≤ w.toNat)
    (h₂ : w.toNat < 2 ^ 59) : (shiftEven w 29).toNat ≤ 2 ^ 30 ∧
      |magnitude .binary32 (shiftEven w 29).toNat -
        magnitude .binary64 (w.toNat + 896 * 2 ^ 52)| ≤ 1 / 2 ^ 23 := by
  have h29 : (29 : UInt64).toNat = 29 := rfl
  obtain ⟨q, hlow, hhigh⟩ : ∃ q, q * 2 ^ 29 ≤ w.toNat ∧ w.toNat < (q + 1) * 2 ^ 29 :=
    ⟨w.toNat / 2 ^ 29, Nat.div_mul_le_self _ _,
      Nat.lt_mul_of_div_lt (Nat.lt_succ_self _) (by norm_num)⟩
  have hnormal : 2 ^ 23 ≤ q := by omega
  have hbound : q < 2 ^ 30 := by omega
  have hge : q ≤ (shiftEven w 29).toNat :=
    le_toNat_shiftEven (by omega) (by decide) (by decide) (by rw [h29]; exact hlow)
  have hle : (shiftEven w 29).toNat ≤ q + 1 :=
    toNat_shiftEven_le (by omega) (by decide) (by decide) (by rw [h29]; exact hhigh.le)
  refine ⟨by omega, ?_⟩
  -- Both magnitudes lie between those of `q` and `q + 1`.
  have hfloor : q * 2 ^ 29 + 896 * 2 ^ 52 ≤ w.toNat + 896 * 2 ^ 52 := Nat.add_le_add_right hlow _
  have hceiling : w.toNat + 896 * 2 ^ 52 ≤ (q + 1) * 2 ^ 29 + 896 * 2 ^ 52 :=
    Nat.add_le_add_right hhigh.le _
  have hsize₁ := magnitude_strictMono (f := .binary64) |>.monotone hfloor
  have hsize₂ := magnitude_strictMono (f := .binary64) |>.monotone hceiling
  rw [← magnitude_single_eq hnormal] at hsize₁
  rw [← magnitude_single_eq (by omega)] at hsize₂
  have hround₁ := magnitude_strictMono (f := .binary32) |>.monotone hge
  have hround₂ := magnitude_strictMono (f := .binary32) |>.monotone hle
  exact (abs_sub_le_of_le_of_le hround₁ hround₂ hsize₁ hsize₂).trans (magnitude_succ_sub_le hbound)

/-- Below the normal range either size is next to nothing. -/
lemma abs_magnitude_sub_le_of_tiny {m n : ℕ} (hm : m < 897 * 2 ^ 52) (hn : n ≤ 2 ^ 23) :
    |magnitude .binary32 n - magnitude .binary64 m| ≤ 1 / 2 ^ 23 := by
  have hsingle : magnitude .binary32 n ≤ magnitude .binary32 0x34000000 :=
    magnitude_strictMono.monotone (by omega)
  have hdouble : magnitude .binary64 m ≤ magnitude .binary64 0x3E80000000000000 :=
    magnitude_strictMono.monotone (by omega)
  have hsingle' : magnitude .binary32 0x34000000 = 1 / 2 ^ 23 := by norm_num [magnitude_binary32]
  have hdouble' : magnitude .binary64 0x3E80000000000000 = 1 / 2 ^ 23 := by
    norm_num [magnitude_binary64]
  exact (abs_sub_le_of_nonneg_of_le (magnitude_nonneg _) (hsingle.trans_eq hsingle')
    (magnitude_nonneg _) (hdouble.trans_eq hdouble'))

/-- Narrowing moves a size below two by one unit of the largest such single at most. -/
lemma Narrows.abs_magnitude_sub_le {size : ℕ} {n : UInt64} (hn : Narrows size n)
    (h : size < 1024 * 2 ^ 52) : n.toNat ≤ 2 ^ 30 ∧
      |magnitude .binary32 n.toNat - magnitude .binary64 size| ≤ 1 / 2 ^ 23 := by
  rcases Nat.lt_or_ge size (897 * 2 ^ 52) with hsmall | hlarge
  · have hle := hn.toNat_le hsmall
    exact ⟨by omega, abs_magnitude_sub_le_of_tiny hsmall hle⟩
  · cases hn with
    | normal w hw hone =>
      subst hw
      exact abs_magnitude_shiftEven_sub_le hone (by omega)
    | subnormal => omega
    | lost => omega

/-- Narrowing a double below two errs by one unit of a single at most. -/
lemma Approx.narrow {x : Float} {ε b r : ℝ} (h : Approx ε b r x) (hb : b + ε < 2) :
    Approx (ε + 1 / 2 ^ 23) b r (narrow x) := by
  have hval := val_double_eq h.1
  have hsmall : |val x| < 2 := h.abs_val_le.trans_lt hb
  have hbit : (x.toBits >>> 32).toUInt32.toNat.testBit 31 = x.toBits.toNat.testBit 63 := by
    rw [UInt64.toNat_toUInt32, UInt64.toNat_shiftRight]
    have h32 : (32 : UInt64).toNat % 64 = 32 := rfl
    rw [h32, Nat.testBit_mod_two_pow, Nat.testBit_shiftRight]
    simp
  rw [hval, abs_signOf_mul, abs_of_nonneg (magnitude_nonneg _)] at hsmall
  have htwo : magnitude .binary64 (1024 * 2 ^ 52) = 2 := by norm_num [magnitude_binary64]
  rw [← htwo, magnitude_strictMono.lt_iff_lt] at hsmall
  obtain ⟨n, hn, hnarrow⟩ := exists_narrows x (hsmall.le.trans (by norm_num))
  obtain ⟨hle, hclose⟩ := hn.abs_magnitude_sub_le hsmall
  have hword : n.toUInt32.toNat = n.toNat := by
    rw [UInt64.toNat_toUInt32, Nat.mod_eq_of_lt (by omega)]
  obtain ⟨hfinite, hresult⟩ := val_ofBits_or_sign (n := n.toUInt32)
    (s := (x.toBits >>> 32).toUInt32) (by omega)
  rw [hnarrow (by omega)]
  refine ⟨hfinite, h.2.1, ?_⟩
  have hmove : |val (Float32.ofBits (n.toUInt32 ||| ((x.toBits >>> 32).toUInt32 &&& signBit))) -
      val x| ≤ 1 / 2 ^ 23 := by
    rwa [hresult, hval, hbit, ← mul_sub, abs_signOf_mul, hword]
  calc _ ≤ _ := abs_sub_le _ (val x) _
    _ ≤ ε + 1 / 2 ^ 23 := by linarith [h.2.2]

end Arbor.Number
