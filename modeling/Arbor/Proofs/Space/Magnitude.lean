import Arbor.Proofs.Number.Unbounded
import Arbor.Space.Vec3

/-!
# Magnitudes of vectors

`Boxed k v` says that the coordinates of `v` are at most `2^k` in size.  Sums and products keep such
bounds, and a vector of any finite size is normalized into a box of its own (`boxed_normalize`): a
length that overflows makes the reciprocal zero, and a length that underflows leaves the vector as
it is.
-/

namespace Arbor

open Number

namespace Vec3

/-- Coordinates up to a power of two. -/
structure Boxed (k : ℕ) (v : Vec3) : Prop where
  x : Below k v.x
  y : Below k v.y
  z : Below k v.z

/-- Finite coordinates. -/
structure Finite (v : Vec3) : Prop where
  x : IsFinite v.x
  y : IsFinite v.y
  z : IsFinite v.z

variable {a b v : Vec3} {k l n : ℕ} {s : Float32}

lemma Boxed.finite (h : Boxed k v) : v.Finite := ⟨h.x.1, h.y.1, h.z.1⟩

lemma Boxed.mono (h : Boxed k v) (hkl : k ≤ l) : Boxed l v :=
  ⟨h.x.mono hkl, h.y.mono hkl, h.z.mono hkl⟩

lemma isFinite_eq_true_iff : v.isFinite = true ↔ v.Finite := by
  rw [isFinite, Bool.and_eq_true, Bool.and_eq_true, isFinite_iff, isFinite_iff, isFinite_iff]
  exact ⟨fun h => ⟨h.1.1, h.1.2, h.2⟩, fun h => ⟨⟨h.x, h.y⟩, h.z⟩⟩

/-! ## Sums and products -/

lemma Boxed.add (ha : Boxed k a) (hb : Boxed l b) (hk : k < n) (hl : l < n) (hn : n < 128) :
    Boxed n (a + b) :=
  ⟨ha.x.add_single hb.x hk hl hn, ha.y.add_single hb.y hk hl hn, ha.z.add_single hb.z hk hl hn⟩

lemma Boxed.sub (ha : Boxed k a) (hb : Boxed l b) (hk : k < n) (hl : l < n) (hn : n < 128) :
    Boxed n (a - b) :=
  ⟨ha.x.sub_single hb.x hk hl hn, ha.y.sub_single hb.y hk hl hn, ha.z.sub_single hb.z hk hl hn⟩

lemma Boxed.scale (ha : Boxed k a) (hs : Below l s) (hkl : k + l ≤ n) (hn : n < 128) :
    Boxed n (a.scale s) :=
  ⟨ha.x.mul_single hs hkl hn, ha.y.mul_single hs hkl hn, ha.z.mul_single hs hkl hn⟩

lemma Boxed.cross (ha : Boxed k a) (hb : Boxed l b) (hkl : k + l < n) (hn : n < 128) :
    Boxed n (a.cross b) where
  x := (ha.y.mul_single hb.z le_rfl (by omega)).sub_single
    (ha.z.mul_single hb.y le_rfl (by omega)) hkl hkl hn
  y := (ha.z.mul_single hb.x le_rfl (by omega)).sub_single
    (ha.x.mul_single hb.z le_rfl (by omega)) hkl hkl hn
  z := (ha.x.mul_single hb.y le_rfl (by omega)).sub_single
    (ha.y.mul_single hb.x le_rfl (by omega)) hkl hkl hn

lemma Boxed.dot (ha : Boxed k a) (hb : Boxed l b) (hkl : k + l + 2 ≤ n) (hn : n < 128) :
    Below n (a.dot b) := by
  have hx : Below (k + l) (a.x * b.x) := ha.x.mul_single hb.x le_rfl (by omega)
  have hy : Below (k + l) (a.y * b.y) := ha.y.mul_single hb.y le_rfl (by omega)
  have hz : Below (k + l) (a.z * b.z) := ha.z.mul_single hb.z le_rfl (by omega)
  have hxy : Below (k + l + 1) (a.x * b.x + a.y * b.y) :=
    hx.add_single hy (by omega) (by omega) (by omega)
  exact hxy.add_single hz (by omega) (by omega) hn

/-! ## Lengths -/

lemma atLeast_lengthSquared (hv : v.Finite) : AtLeast 0 v.lengthSquared :=
  ((atLeast_square_zero hv.x).add_zero (atLeast_square_zero hv.y)).add_zero
    (atLeast_square_zero hv.z)

/-- A length is at least any power of two that a coordinate reaches, if its square is not lost. -/
lemma atLeast_length (hv : v.Finite) {j : ℤ} (hj : -74 ≤ j)
    (h : 2 ^ j ≤ |val v.x| ∨ 2 ^ j ≤ |val v.y| ∨ 2 ^ j ≤ |val v.z|) :
    AtLeast (2 ^ j) v.length := by
  have hgrid : OnGrid .binary32 (2 ^ (2 * j)) :=
    onGrid_zpow (by show (-149 : ℤ) ≤ 2 * j; omega)
  have hpos : (0 : ℝ) ≤ 2 ^ (2 * j) := by positivity
  have hadd : ∀ {x y : Float32} {b c : ℝ}, AtLeast b x → AtLeast c y →
      b + c = 2 ^ (2 * j) → AtLeast (2 ^ (2 * j)) (x + y) := by
    intro x y b c hx hy hsum
    rw [← hsum] at hgrid hpos ⊢
    exact hx.add hy hgrid hpos
  have hsquared : AtLeast (2 ^ (2 * j)) v.lengthSquared := by
    have hx := atLeast_square_zero hv.x
    have hy := atLeast_square_zero hv.y
    have hz := atLeast_square_zero hv.z
    rcases h with h | h | h
    · exact hadd (hadd (atLeast_square hj hv.x h) hy (add_zero _)) hz (add_zero _)
    · exact hadd (hadd hx (atLeast_square hj hv.y h) (zero_add _)) hz (add_zero _)
    · exact hadd (hx.add_zero hy) (atLeast_square hj hv.z h) (zero_add _)
  apply hsquared.sqrt (onGrid_zpow (by show (-149 : ℤ) ≤ j; omega)) (by positivity)
  rw [← zpow_natCast, ← zpow_mul, Nat.cast_two, mul_comm]

/-- A length above zero is at least the root of the smallest positive number. -/
lemma atLeast_length_of_pos (hv : v.Finite) (h : 0 < v.length) :
    AtLeast (2 ^ (-75 : ℤ)) v.length := by
  have hsquared : AtLeast (2 ^ (-149 : ℤ)) v.lengthSquared := by
    rcases atLeast_lengthSquared hv with ⟨hfinite, hnonneg⟩ | hinf
    · rcases hnonneg.eq_or_lt with hzero | hpos
      · -- The root of zero is zero.
        exfalso
        obtain ⟨hroot, -, hle⟩ : Within 0 0 v.length :=
          within_zero_sqrt ⟨hfinite, hnonneg, hzero.ge⟩
        rw [lt_iff_val_lt below_zero.1 hroot, val_zero] at h
        linarith
      · exact .inl ⟨hfinite, zpow_le_val_of_pos hfinite hpos⟩
    · exact .inr hinf
  apply hsquared.sqrt (onGrid_zpow (by decide)) (by positivity)
  rw [← zpow_natCast, ← zpow_mul]
  exact zpow_le_zpow_right₀ (by norm_num) (by norm_num)

lemma within_square {x : Float32} (hx : Below k x) (hk : k ≤ 63) :
    Within 0 (2 ^ (2 * k)) (x * x) := by
  apply within_mul held_zero (held_two_pow (by change 2 * k < 128; omega)) hx.1 hx.1
    (mul_self_nonneg _)
  rw [← abs_mul_abs_self, two_mul, pow_add]
  exact mul_le_mul hx.2 hx.2 (abs_nonneg _) (by positivity)

/-- Three squares stay below the limit where four would reach it. -/
lemma below_length (hv : Boxed k v) (hk : k ≤ 63) : Below (k + 1) v.length := by
  have hpow : (2 : ℝ) ^ (2 * k + 1) = 2 * 2 ^ (2 * k) := pow_succ' _ _
  have hpos : (0 : ℝ) < 2 ^ (2 * k) := by positivity
  have hheld : Held Float32 (3 * 2 ^ (2 * k)) := by
    constructor
    · refine ⟨3, (2 * k : ℕ), by decide, ?_, ?_⟩
      · exact le_trans (by decide) (Int.natCast_nonneg (2 * k))
      · rw [zpow_natCast]
        push_cast
        ring
    · have hlimit : limit (formatOf Float32) = 2 ^ 128 := rfl
      rw [hlimit, abs_of_pos (by positivity)]
      calc 3 * (2 : ℝ) ^ (2 * k) ≤ 3 * 2 ^ 126 :=
            mul_le_mul_of_nonneg_left (pow_le_pow_right₀ (by norm_num) (by omega)) (by norm_num)
        _ < 2 ^ 128 := by norm_num
  have hx := within_square hv.x hk
  have hy := within_square hv.y hk
  have hz := within_square hv.z hk
  have hxy : Within 0 (2 ^ (2 * k + 1)) (v.x * v.x + v.y * v.y) := by
    apply within_add held_zero (held_two_pow (by change 2 * k + 1 < 128; omega)) hx.1 hy.1
    · exact add_nonneg hx.2.1 hy.2.1
    · linarith [hx.2.2, hy.2.2]
  obtain ⟨hfinite, hlow, hhigh⟩ : Within 0 (3 * 2 ^ (2 * k)) v.lengthSquared := by
    apply within_add held_zero hheld hxy.1 hz.1
    · exact add_nonneg hxy.2.1 hz.2.1
    · linarith [hxy.2.2, hz.2.2]
  refine below_of_within (within_sqrt held_zero (held_two_pow (by change k + 1 < 128; omega))
    hfinite hlow (Real.sqrt_nonneg _) ?_)
  rw [Real.sqrt_le_iff]
  have hfour : ((2 : ℝ) ^ (k + 1)) ^ 2 = 4 * 2 ^ (2 * k) := by ring
  refine ⟨by positivity, hhigh.trans ?_⟩
  rw [hfour]
  linarith

/-- Coordinates that are zero, of either sign. -/
structure Null (v : Vec3) : Prop where
  x : Within 0 0 v.x
  y : Within 0 0 v.y
  z : Within 0 0 v.z

lemma Null.length (h : v.Null) : Within 0 0 v.length := by
  have hsquare : ∀ {x : Float32}, Within 0 0 x → Within 0 0 (x * x) := fun hx =>
    within_zero_mul hx.1 hx
  have hsquared : Within 0 0 v.lengthSquared :=
    within_zero_add (within_zero_add (hsquare h.x) (hsquare h.y)) (hsquare h.z)
  exact within_zero_sqrt hsquared

/-- A point that is finite is at no distance from itself. -/
lemma within_distance_self {p : Vec3} (hp : p.Finite) : Within 0 0 (p.distance p) := by
  have hdifference : ∀ {x : Float32}, IsFinite x → Within 0 0 (x - x) := fun hx =>
    within_sub held_zero held_zero hx hx (sub_self _).ge (sub_self _).le
  have hnull : Null (p - p) := ⟨hdifference hp.x, hdifference hp.y, hdifference hp.z⟩
  exact hnull.length

/-- A coordinate by a length: it is at most twice as large as the power of two below it. -/
lemma below_mul_reciprocal {x length : Float32} (hx : IsFinite x)
    (hlarge : ∀ j : ℤ, -74 ≤ j → 2 ^ j ≤ |val x| → AtLeast (2 ^ j) length)
    (hsmall : AtLeast (2 ^ (-75 : ℤ)) length) : Below 1 (x * (1 / length)) := by
  obtain ⟨j, hj, hj', hlt, hlength⟩ : ∃ j : ℤ, -127 ≤ j ∧ j ≤ 149 ∧ |val x| ≤ 2 * 2 ^ j ∧
      AtLeast (2 ^ j) length := by
    rcases le_or_gt ((2 : ℝ) ^ (-74 : ℤ)) |val x| with hle | hlt
    · have hj := le_log_of_zpow_le hle
      have hpos : 0 < |val x| := lt_of_lt_of_le (by positivity) hle
      have hlow : (2 : ℝ) ^ Int.log 2 |val x| ≤ |val x| := by
        exact_mod_cast Int.zpow_log_le_self (b := 2) (by norm_num) hpos
      have hhigh : |val x| < 2 ^ (Int.log 2 |val x| + 1) := by
        exact_mod_cast Int.lt_zpow_succ_log_self (b := 2) (by norm_num) |val x|
      have hlimit : |val x| < 2 ^ (128 : ℤ) := hx.abs_val_lt
      have hlog : Int.log 2 |val x| < 128 :=
        (zpow_lt_zpow_iff_right₀ (by norm_num : (1 : ℝ) < 2)).mp (hlow.trans_lt hlimit)
      rw [zpow_add_one₀ (by norm_num), mul_comm] at hhigh
      exact ⟨_, by omega, by omega, hhigh.le, hlarge _ hj hlow⟩
    · refine ⟨-75, by norm_num, by norm_num, hlt.le.trans_eq ?_, hsmall⟩
      norm_num
  obtain ⟨hfinite, hlow, hhigh⟩ := within_reciprocal hj hj' hlength
  apply below_mul (by decide) hx hfinite
  rw [abs_mul, abs_of_nonneg hlow, pow_one]
  calc |val x| * val (1 / length) ≤ 2 * 2 ^ j * 2 ^ (-j) :=
        mul_le_mul hlt hhigh hlow (by positivity)
    _ = 2 := by
        rw [mul_assoc, ← zpow_add₀ (by norm_num), add_neg_cancel, zpow_zero, mul_one]

theorem boxed_normalize (hv : v.Finite) : Boxed 1 v.normalize := by
  unfold normalize
  split_ifs with hpos
  · have hsmall := atLeast_length_of_pos hv hpos
    exact ⟨below_mul_reciprocal hv.x (fun j hj h => atLeast_length hv hj (.inl h)) hsmall,
      below_mul_reciprocal hv.y (fun j hj h => atLeast_length hv hj (.inr (.inl h))) hsmall,
      below_mul_reciprocal hv.z (fun j hj h => atLeast_length hv hj (.inr (.inr h))) hsmall⟩
  · have hbelow : ∀ x : Float32, IsFinite x →
        (2 ^ (1 : ℤ) ≤ |val x| → AtLeast (2 ^ (1 : ℤ)) v.length) → Below 1 x := by
      intro x hx hlength
      refine ⟨hx, ?_⟩
      by_contra hlt
      rw [pow_one, not_le] at hlt
      exact hpos (zero_lt_of_atLeast (by positivity) (hlength (by simpa using hlt.le)))
    exact ⟨hbelow _ hv.x fun h => atLeast_length hv (by norm_num) (.inl h),
      hbelow _ hv.y fun h => atLeast_length hv (by norm_num) (.inr (.inl h)),
      hbelow _ hv.z fun h => atLeast_length hv (by norm_num) (.inr (.inr h))⟩

end Vec3

end Arbor
