import Arbor.Proofs.Number.Accuracy
import Arbor.Proofs.Space.Magnitude
import Mathlib.Analysis.InnerProductSpace.PiL2
import Mathlib.LinearAlgebra.CrossProduct

/-!
# Directions are accurate

The coordinates of a vector stand for a point of Euclidean space (`Vec3.real`), and an operation on
vectors is the operation of geometry up to rounding (`Around`).  Normalizing is the one operation
that magnifies an error, by twice the reciprocal of the length (`norm_unit_sub_le`); its own
rounding is a small constant, whatever the length (`Around.normalize`).
-/

namespace Arbor

open Number

/-- The space of the points that coordinates stand for. -/
abbrev Space := EuclideanSpace ℝ (Fin 3)

namespace Space

open scoped RealInnerProductSpace

variable {a b c v w : Space} {ε δ : ℝ}

/-- The vector product. -/
noncomputable def cross (a b : Space) : Space := WithLp.toLp 2 (crossProduct a.ofLp b.ofLp)

/-- The direction of a vector. -/
noncomputable def unit (v : Space) : Space := ‖v‖⁻¹ • v

lemma norm_unit (hv : v ≠ 0) : ‖unit v‖ = 1 := by
  rw [unit, norm_smul, norm_inv, norm_norm, inv_mul_cancel₀ (norm_ne_zero_iff.mpr hv)]

lemma norm_unit_le (v : Space) : ‖unit v‖ ≤ 1 := by
  rcases eq_or_ne v 0 with rfl | hv
  · simp [unit]
  · exact (norm_unit hv).le

/-- Directions differ by twice the difference of the vectors, by the length of one of them. -/
lemma norm_unit_sub_le (hv : v ≠ 0) (w : Space) : ‖unit w - unit v‖ ≤ 2 * ‖w - v‖ / ‖v‖ := by
  have hpos : 0 < ‖v‖ := norm_pos_iff.mpr hv
  have hsplit : ‖v‖ • (unit w - unit v) = (‖v‖ - ‖w‖) • unit w + (w - v) := by
    have hw : ‖w‖ • unit w = w := by
      rcases eq_or_ne w 0 with rfl | hw
      · simp
      · rw [unit, smul_smul, mul_inv_cancel₀ (norm_ne_zero_iff.mpr hw), one_smul]
    have hv' : ‖v‖ • unit v = v := by
      rw [unit, smul_smul, mul_inv_cancel₀ hpos.ne', one_smul]
    rw [smul_sub, hv', sub_smul, hw]
    abel
  rw [le_div_iff₀ hpos, mul_comm, ← abs_of_pos hpos, ← Real.norm_eq_abs, ← norm_smul, hsplit]
  have hnorms : |‖v‖ - ‖w‖| ≤ ‖w - v‖ := by
    rw [norm_sub_rev]
    exact abs_norm_sub_norm_le v w
  calc ‖(‖v‖ - ‖w‖) • unit w + (w - v)‖ ≤ |‖v‖ - ‖w‖| * ‖unit w‖ + ‖w - v‖ := by
        rw [← Real.norm_eq_abs, ← norm_smul]
        exact norm_add_le _ _
    _ ≤ ‖w - v‖ * 1 + ‖w - v‖ := by
        gcongr
        exact norm_unit_le w
    _ = 2 * ‖w - v‖ := by ring

lemma abs_apply_le (v : Space) (i : Fin 3) : |v i| ≤ ‖v‖ := PiLp.norm_apply_le v i

/-- The norm is at most twice the largest coordinate. -/
lemma norm_le_two_mul (h : ∀ i, |v i| ≤ ε) : ‖v‖ ≤ 2 * ε := by
  have hε : 0 ≤ ε := (abs_nonneg _).trans (h 0)
  rw [EuclideanSpace.norm_eq, Real.sqrt_le_left (by positivity), Fin.sum_univ_three]
  simp only [Real.norm_eq_abs, sq_abs]
  have hsq : ∀ i, v i ^ 2 ≤ ε ^ 2 := fun i => sq_le_sq' (abs_le.mp (h i)).1 (abs_le.mp (h i)).2
  linarith [hsq 0, hsq 1, hsq 2, sq_nonneg ε]

lemma norm_sq (v : Space) : ‖v‖ ^ 2 = v 0 ^ 2 + v 1 ^ 2 + v 2 ^ 2 := by
  rw [EuclideanSpace.real_norm_sq_eq, Fin.sum_univ_three]

lemma inner_eq (a b : Space) : ⟪a, b⟫ = a 0 * b 0 + a 1 * b 1 + a 2 * b 2 := by
  simp [PiLp.inner_apply, Fin.sum_univ_three]
  ring

@[simp] lemma cross_zero (a b : Space) : cross a b 0 = a 1 * b 2 - a 2 * b 1 := by
  simp [cross, cross_apply]

@[simp] lemma cross_one (a b : Space) : cross a b 1 = a 2 * b 0 - a 0 * b 2 := by
  simp [cross, cross_apply]

@[simp] lemma cross_two (a b : Space) : cross a b 2 = a 0 * b 1 - a 1 * b 0 := by
  simp [cross, cross_apply]

/-- The identity of Lagrange. -/
lemma norm_cross_sq (a b : Space) : ‖cross a b‖ ^ 2 = ‖a‖ ^ 2 * ‖b‖ ^ 2 - ⟪a, b⟫ ^ 2 := by
  rw [norm_sq, norm_sq, norm_sq, inner_eq, cross_zero, cross_one, cross_two]
  ring

lemma norm_cross_le (a b : Space) : ‖cross a b‖ ≤ ‖a‖ * ‖b‖ := by
  rw [← sq_le_sq₀ (norm_nonneg _) (by positivity), norm_cross_sq, mul_pow]
  linarith [sq_nonneg ⟪a, b⟫]

lemma cross_add_left (a b c : Space) : cross (a + b) c = cross a c + cross b c := by
  simp [cross]

lemma cross_add_right (a b c : Space) : cross a (b + c) = cross a b + cross a c := by
  simp [cross]

lemma cross_smul_left (t : ℝ) (a b : Space) : cross (t • a) b = t • cross a b := by
  simp [cross]

lemma cross_smul_right (t : ℝ) (a b : Space) : cross a (t • b) = t • cross a b := by
  simp [cross]

lemma cross_swap (a b : Space) : cross a b = -cross b a := by
  ext i
  fin_cases i <;> simp <;> ring

lemma cross_self (a : Space) : cross a a = 0 := by
  simp [cross]

/-- A vector product is bilinear, so its errors are those of the factors. -/
lemma norm_cross_sub_le (ha : ‖v - a‖ ≤ ε) (hb : ‖w - b‖ ≤ δ) :
    ‖cross v w - cross a b‖ ≤ ‖a‖ * δ + ‖b‖ * ε + ε * δ := by
  have hsplit : cross v w - cross a b =
      cross a (w - b) + cross (v - a) b + cross (v - a) (w - b) := by
    have hv : v = a + (v - a) := by abel
    have hw : w = b + (w - b) := by abel
    conv_lhs => rw [hv, hw, cross_add_left, cross_add_right, cross_add_right]
    abel
  have hε := (norm_nonneg _).trans ha
  rw [hsplit]
  calc _ ≤ ‖cross a (w - b)‖ + ‖cross (v - a) b‖ + ‖cross (v - a) (w - b)‖ := norm_add₃_le
    _ ≤ ‖a‖ * ‖w - b‖ + ‖v - a‖ * ‖b‖ + ‖v - a‖ * ‖w - b‖ := by
        gcongr <;> exact norm_cross_le _ _
    _ ≤ ‖a‖ * δ + ε * ‖b‖ + ε * δ := by gcongr
    _ = ‖a‖ * δ + ‖b‖ * ε + ε * δ := by ring

end Space

namespace Vec3

open Space

/-- The point that the coordinates of a vector stand for. -/
noncomputable def real (v : Vec3) : Space := !₂[val v.x, val v.y, val v.z]

/-- A finite vector within `ε` of a point. -/
def Around (ε : ℝ) (r : Space) (v : Vec3) : Prop := v.Finite ∧ ‖v.real - r‖ ≤ ε

variable {a b v : Vec3} {x : Float32} {r s : Space} {ε ε' δ c t : ℝ} {n k : ℤ}

@[simp] lemma real_apply_zero (v : Vec3) : v.real 0 = val v.x := rfl

@[simp] lemma real_apply_one (v : Vec3) : v.real 1 = val v.y := rfl

@[simp] lemma real_apply_two (v : Vec3) : v.real 2 = val v.z := rfl

lemma Finite.around (h : v.Finite) : Around 0 v.real v := ⟨h, by simp⟩

lemma Around.mono (h : Around ε r v) (hε : ε ≤ ε') : Around ε' r v := ⟨h.1, h.2.trans hε⟩

lemma Around.shift (h : Around ε r v) (hs : ‖r - s‖ ≤ δ) : Around (ε + δ) s v :=
  ⟨h.1, (norm_sub_le_norm_sub_add_norm_sub _ r _).trans (add_le_add h.2 hs)⟩

lemma Around.norm_le (h : Around ε r v) : ‖v.real‖ ≤ ‖r‖ + ε := by
  have := norm_sub_norm_le v.real r
  linarith [h.2]

lemma Around.le_norm (h : Around ε r v) : ‖r‖ - ε ≤ ‖v.real‖ := by
  have := norm_sub_norm_le r v.real
  rw [norm_sub_rev] at this
  linarith [h.2]

/-- A vector whose coordinates are each near those of a point. -/
lemma around_of_approx {bx by' bz : ℝ} (hx : Approx ε bx (r 0) v.x) (hy : Approx ε by' (r 1) v.y)
    (hz : Approx ε bz (r 2) v.z) : Around (2 * ε) r v := by
  refine ⟨⟨hx.1, hy.1, hz.1⟩, norm_le_two_mul fun i => ?_⟩
  fin_cases i
  · exact hx.2.2
  · exact hy.2.2
  · exact hz.2.2

/-- The coordinates of a finite vector, as approximations of themselves. -/
lemma Finite.approx (h : v.Finite) (hc : ‖v.real‖ ≤ c) : Approx 0 c (val v.x) v.x ∧
    Approx 0 c (val v.y) v.y ∧ Approx 0 c (val v.z) v.z :=
  ⟨h.x.approx ((abs_apply_le v.real 0).trans hc), h.y.approx ((abs_apply_le v.real 1).trans hc),
    h.z.approx ((abs_apply_le v.real 2).trans hc)⟩

/-! ## Sums and multiples -/

lemma Around.add (ha : Around ε r a) (hb : Around δ s b) (n : ℤ) (hn : Resolved Float32 n)
    (h : ‖r‖ + ‖s‖ + (ε + δ) < 2 ^ (n + 1)) :
    Around (ε + δ + 2 ^ n / 2 ^ 23) (r + s) (a + b) := by
  have hsum : ‖a.real‖ + ‖b.real‖ + (0 + 0) < 2 ^ (n + 1) := by linarith [ha.norm_le, hb.norm_le]
  obtain ⟨hax, hay, haz⟩ := ha.1.approx le_rfl
  obtain ⟨hbx, hby, hbz⟩ := hb.1.approx le_rfl
  have hround : Around (2 * (0 + 0 + 2 ^ n * roundoff Float32)) (a.real + b.real) (a + b) :=
    around_of_approx (hax.add hbx n hn hsum) (hay.add hby n hn hsum) (haz.add hbz n hn hsum)
  have hmove : ‖a.real + b.real - (r + s)‖ ≤ ε + δ := by
    rw [add_sub_add_comm]
    exact (norm_add_le _ _).trans (add_le_add ha.2 hb.2)
  refine (hround.shift hmove).mono (le_of_eq ?_)
  rw [roundoff_single]
  ring

/-- The way between two points, up to the errors of both. -/
lemma Around.norm_sub_sub_le (ha : Around ε r a) (hb : Around δ s b) :
    ‖a.real - b.real - (r - s)‖ ≤ ε + δ := by
  rw [sub_sub_sub_comm]
  exact (norm_sub_le _ _).trans (add_le_add ha.2 hb.2)

lemma Around.sub (ha : Around ε r a) (hb : Around δ s b) (n : ℤ) (hn : Resolved Float32 n)
    (h : ‖r‖ + ‖s‖ + (ε + δ) < 2 ^ (n + 1)) :
    Around (ε + δ + 2 ^ n / 2 ^ 23) (r - s) (a - b) := by
  have hsum : ‖a.real‖ + ‖b.real‖ + (0 + 0) < 2 ^ (n + 1) := by linarith [ha.norm_le, hb.norm_le]
  obtain ⟨hax, hay, haz⟩ := ha.1.approx le_rfl
  obtain ⟨hbx, hby, hbz⟩ := hb.1.approx le_rfl
  have hround : Around (2 * (0 + 0 + 2 ^ n * roundoff Float32)) (a.real - b.real) (a - b) :=
    around_of_approx (hax.sub hbx n hn hsum) (hay.sub hby n hn hsum) (haz.sub hbz n hn hsum)
  refine (hround.shift (ha.norm_sub_sub_le hb)).mono (le_of_eq ?_)
  rw [roundoff_single]
  ring

lemma Around.scale (ha : Around ε r a) (hx : Approx δ c t x) (n : ℤ) (hn : Resolved Float32 n)
    (h : (‖r‖ + ε) * (c + δ) < 2 ^ (n + 1)) :
    Around (c * ε + ‖r‖ * δ + ε * δ + 2 ^ n / 2 ^ 23) (t • r) (a.scale x) := by
  have hsize : |val x| ≤ c + δ := hx.abs_val_le
  have hself : Approx 0 (c + δ) (val x) x := hx.1.approx hsize
  obtain ⟨hax, hay, haz⟩ := ha.1.approx ha.norm_le
  have hmul : ∀ {u : Float32}, Approx 0 (‖r‖ + ε) (val u) u →
      Approx (2 ^ n / 2 ^ 24) ((‖r‖ + ε) * (c + δ)) (val x * val u) (u * x) := by
    intro u hu
    rw [mul_comm (val x)]
    refine (hu.mul hself n hn ?_).mono (le_of_eq ?_) le_rfl
    · linarith
    · rw [roundoff_single]
      ring
  have hround : Around (2 * (2 ^ n / 2 ^ 24)) (val x • a.real) (a.scale x) :=
    around_of_approx (hmul hax) (hmul hay) (hmul haz)
  have hmove : ‖val x • a.real - t • r‖ ≤ c * ε + ‖r‖ * δ + ε * δ := by
    have hsplit : val x • a.real - t • r =
        t • (a.real - r) + (val x - t) • r + (val x - t) • (a.real - r) := by
      simp only [smul_sub, sub_smul]
      abel
    have hc := (abs_nonneg _).trans hx.2.1
    have hδ := (abs_nonneg _).trans hx.2.2
    rw [hsplit]
    calc _ ≤ _ := norm_add₃_le
      _ ≤ c * ε + δ * ‖r‖ + δ * ε := by
          rw [norm_smul, norm_smul, norm_smul, Real.norm_eq_abs, Real.norm_eq_abs]
          gcongr
          · exact hx.2.1
          · exact ha.2
          · exact hx.2.2
          · exact hx.2.2
          · exact ha.2
      _ = c * ε + ‖r‖ * δ + ε * δ := by ring
  refine (hround.shift hmove).mono (le_of_eq ?_)
  ring

lemma Around.cross (ha : Around ε r a) (hb : Around δ s b) (n : ℤ) (hn : Resolved Float32 n)
    (h : (‖r‖ + ε) * (‖s‖ + δ) * 4 < 3 * 2 ^ n) :
    Around (‖r‖ * δ + ‖s‖ * ε + ε * δ + 3 * 2 ^ n / 2 ^ 23) (Space.cross r s) (a.cross b) := by
  obtain ⟨hax, hay, haz⟩ := ha.1.approx ha.norm_le
  obtain ⟨hbx, hby, hbz⟩ := hb.1.approx hb.norm_le
  have hpow : (2 : ℝ) ^ (n + 1) = 2 ^ n * 2 := zpow_add_one₀ (by norm_num) n
  have hpos : (0 : ℝ) < 2 ^ n := by positivity
  have hmul : ∀ {u v : Float32}, Approx 0 (‖r‖ + ε) (val u) u → Approx 0 (‖s‖ + δ) (val v) v →
      Approx (2 ^ n / 2 ^ 24) (3 / 4 * 2 ^ n) (val u * val v) (u * v) := by
    intro u v hu hv
    refine (hu.mul hv n hn ?_).mono (le_of_eq ?_) (by linarith)
    · rw [hpow]
      linarith
    · rw [roundoff_single]
      ring
  have hsub : ∀ {u v : Float32} {y z : ℝ}, Approx (2 ^ n / 2 ^ 24) (3 / 4 * 2 ^ n) y u →
      Approx (2 ^ n / 2 ^ 24) (3 / 4 * 2 ^ n) z v →
      Approx (3 * 2 ^ n / 2 ^ 24) (2 * 2 ^ n) (y - z) (u - v) := by
    intro u v y z hu hv
    refine (hu.sub hv n hn ?_).mono (le_of_eq ?_) (by linarith)
    · rw [hpow]
      norm_num
      linarith
    · rw [roundoff_single]
      ring
  have hround : Around (2 * (3 * 2 ^ n / 2 ^ 24)) (Space.cross a.real b.real) (a.cross b) := by
    apply around_of_approx
    · rw [cross_zero]
      exact hsub (hmul hay hbz) (hmul haz hby)
    · rw [cross_one]
      exact hsub (hmul haz hbx) (hmul hax hbz)
    · rw [cross_two]
      exact hsub (hmul hax hby) (hmul hay hbx)
  refine (hround.shift (norm_cross_sub_le ha.2 hb.2)).mono (le_of_eq ?_)
  ring

/-! ## Normalizing -/

/-- The reciprocal of a number that stays away from zero. -/
lemma approx_reciprocal {x : Float32} {ε b c r : ℝ} (hx : Approx ε b r x) (hc : 0 < c)
    (hr : c ≤ r) (hε : 2 * ε ≤ c) (n : ℤ) (hn : Resolved Float32 n)
    (h : 1 / c + 2 * ε / c ^ 2 < 2 ^ (n + 1)) :
    Approx (2 * ε / c ^ 2 + 2 ^ n / 2 ^ 24) (1 / c) (1 / r) (1 / x) := by
  have hx0 : c / 2 ≤ val x := by
    have := (abs_le.mp hx.2.2).1
    linarith
  have hε0 : 0 ≤ ε := (abs_nonneg _).trans hx.2.2
  have hxpos : 0 < val x := by linarith
  have hrpos : 0 < r := by linarith
  have hdiff : |val (1 : Float32) / val x - 1 / r| ≤ 2 * ε / c ^ 2 := by
    rw [val_one, div_sub_div _ _ hxpos.ne' hrpos.ne', one_mul, mul_one, abs_div,
      abs_of_pos (mul_pos hxpos hrpos), abs_sub_comm]
    calc |val x - r| / (val x * r) ≤ ε / (c / 2 * c) := by
          gcongr
          exact hx.2.2
      _ = 2 * ε / c ^ 2 := by
          field_simp
  have happrox := approx_of_rounded (α := Float32) (z := 1 / x) (b := 1 / c) (r := 1 / r) hn ?_ hdiff
    (finite_div below_one.1 hx.1 hxpos.ne') h
  · refine happrox.mono ?_ le_rfl
    rw [roundoff_single, mul_one_div]
  · rw [abs_of_pos (by positivity)]
    exact one_div_le_one_div_of_le hc hr

lemma zpow_two_mul_add (k m : ℤ) : (2 : ℝ) ^ (2 * k + m) = (2 ^ k) ^ 2 * 2 ^ m := by
  rw [zpow_add₀ (by norm_num), mul_comm 2 k, zpow_mul]
  norm_cast

/-- The sum of the squares, with one unit for the squares and one for the sums. -/
lemma approx_lengthSquared {v : Vec3} (hv : v.Finite) {m : ℤ} (hn : Resolved Float32 n)
    (hm : Resolved Float32 m) (hsquares : ‖v.real‖ ^ 2 < 2 ^ (n + 1))
    (hsums : 2 * ‖v.real‖ ^ 2 + (3 * 2 ^ n + 2 ^ m) / 2 ^ 24 < 2 ^ (m + 1)) :
    Approx ((3 * 2 ^ n + 2 * 2 ^ m) / 2 ^ 24) (‖v.real‖ ^ 2) (‖v.real‖ ^ 2) v.lengthSquared := by
  have hnorm : val v.x ^ 2 + val v.y ^ 2 + val v.z ^ 2 = ‖v.real‖ ^ 2 := (norm_sq v.real).symm
  have hn0 : (0 : ℝ) < 2 ^ n := by positivity
  have hm0 : (0 : ℝ) < 2 ^ m := by positivity
  obtain ⟨hx, hy, hz⟩ := hv.approx le_rfl
  set L : ℝ := ‖v.real‖
  have hsq : ∀ {u : Float32}, Approx 0 L (val u) u →
      Approx (2 ^ n / 2 ^ 24) (L ^ 2) (val u ^ 2) (u * u) := by
    intro u hu
    rw [pow_two (val u)]
    refine (hu.mul hu n hn ?_).mono (le_of_eq ?_) (le_of_eq (by ring))
    · linarith
    · rw [roundoff_single]
      ring
  have hsum := (hsq hx).add (hsq hy) m hm (by linarith)
  have hcap : |val v.x ^ 2 + val v.y ^ 2| ≤ L ^ 2 := by
    rw [abs_of_nonneg (by positivity)]
    linarith [sq_nonneg (val v.z)]
  rw [roundoff_single] at hsum
  have htotal := (hsum.cap hcap).add (hsq hz) m hm (by linarith)
  rw [hnorm, roundoff_single] at htotal
  exact (htotal.cap (abs_of_nonneg (by positivity)).le).mono (le_of_eq (by ring)) le_rfl

/-- The length, as accurate as the sum of the squares. -/
lemma approx_length_of_squared {v : Vec3} {e : ℝ} (hk₁ : -120 ≤ k) (hk₂ : k ≤ 120)
    (hlow : (2 : ℝ) ^ k ≤ ‖v.real‖) (hhigh : ‖v.real‖ < 2 ^ k * 2) (he : e ≤ 1 / 100)
    (h : Approx (e * (2 ^ k) ^ 2) (‖v.real‖ ^ 2) (‖v.real‖ ^ 2) v.lengthSquared) :
    Approx ((50 / 99 * e + 2 / 2 ^ 24) * 2 ^ k) ‖v.real‖ ‖v.real‖ v.length := by
  have hnext : (2 : ℝ) ^ (k + 1) = 2 ^ k * 2 := zpow_add_one₀ (by norm_num) k
  have hP : (0 : ℝ) < 2 ^ k := by positivity
  set P : ℝ := 2 ^ k
  set L : ℝ := ‖v.real‖
  have hbelow : P ^ 2 ≤ L ^ 2 := pow_le_pow_left₀ hP.le hlow 2
  have hsmall : e * P ^ 2 ≤ 1 / 100 * P ^ 2 := mul_le_mul_of_nonneg_right he (by positivity)
  have hcancel : e * P ^ 2 / (2 * (99 / 100 * P)) = 50 / 99 * e * P := by
    field_simp
    ring
  have hroot : 50 / 99 * e * P ≤ P := by nlinarith
  -- A bit less than the leading power bounds the root from below.
  have hlength := h.sqrt (c := 99 / 100 * P) (by positivity)
    (by linarith [sq_nonneg P]) (k + 1) (by
      show -149 ≤ k + 1 + 1 - 24 ∧ k + 1 + 1 < 128
      omega) (by
      rw [Real.sqrt_sq (norm_nonneg _), hcancel, zpow_add_one₀ (by norm_num), hnext]
      linarith)
  rw [Real.sqrt_sq (norm_nonneg _), hnext, hcancel] at hlength
  exact hlength.mono (le_of_eq (by ring)) le_rfl

/-- The computed length is accurate to a small part of itself. -/
lemma approx_length {v : Vec3} (hv : v.Finite) {k : ℤ} (hk₁ : -60 ≤ k) (hk₂ : k ≤ 60)
    (hlow : (2 : ℝ) ^ k ≤ ‖v.real‖) (hhigh : ‖v.real‖ < 2 ^ k * 2) :
    Approx (14 * 2 ^ k / 2 ^ 24) ‖v.real‖ ‖v.real‖ v.length := by
  have hscale : ∀ m : ℤ, -4 ≤ m → m ≤ 4 → Resolved Float32 (2 * k + m) := fun m h₁ h₂ => by
    show -149 ≤ 2 * k + m + 1 - 24 ∧ 2 * k + m + 1 < 128
    omega
  have hpow := zpow_two_mul_add k
  have hP : (0 : ℝ) < (2 ^ k) ^ 2 := by positivity
  have habove : ‖v.real‖ ^ 2 < 4 * (2 ^ k) ^ 2 := by nlinarith [norm_nonneg v.real]
  have hsquared := approx_lengthSquared hv (hscale 1 (by norm_num) (by norm_num))
    (hscale 3 (by norm_num) (by norm_num)) (by
      rw [add_assoc, hpow]
      norm_num
      linarith) (by
      rw [add_assoc, hpow, hpow, hpow]
      norm_num
      linarith)
  have hlength := approx_length_of_squared (e := 22 / 2 ^ 24) (by omega) (by omega) hlow hhigh
    (by norm_num) (hsquared.mono (le_of_eq (by rw [hpow, hpow]; norm_num; ring)) le_rfl)
  exact hlength.mono (by linarith) le_rfl

/-- So is its reciprocal. -/
lemma approx_reciprocal_length {v : Vec3} (hv : v.Finite) {k : ℤ} (hk₁ : -60 ≤ k) (hk₂ : k ≤ 60)
    (hlow : (2 : ℝ) ^ k ≤ ‖v.real‖) (hhigh : ‖v.real‖ < 2 ^ k * 2) :
    Approx (29 / 2 ^ 24 / 2 ^ k) (1 / 2 ^ k) (1 / ‖v.real‖) (1 / v.length) := by
  have hlength := approx_length hv hk₁ hk₂ hlow hhigh
  have hinverse : (2 : ℝ) ^ (-k + 1) = 2 / 2 ^ k := by
    rw [zpow_add_one₀ (by norm_num), zpow_neg]
    ring
  have hinverse' : (2 : ℝ) ^ (-k) = 1 / 2 ^ k := by rw [zpow_neg, one_div]
  have hP : (0 : ℝ) < 2 ^ k := by positivity
  set P : ℝ := 2 ^ k
  have hcancel : 2 * (14 * P / 2 ^ 24) / P ^ 2 = 28 / 2 ^ 24 / P := by
    field_simp
    norm_num
  refine (approx_reciprocal hlength hP hlow (by linarith) (-k) ?_ ?_).mono (le_of_eq ?_) le_rfl
  · show -149 ≤ -k + 1 - 24 ∧ -k + 1 < 128
    omega
  · rw [hcancel, hinverse, ← add_div]
    gcongr
    norm_num
  · rw [hcancel, hinverse']
    ring

/-- The rounding of a normalized vector is the same for all lengths. -/
lemma around_normalize_unit (hv : v.Finite) (hlow : 2 ^ (-60 : ℤ) ≤ ‖v.real‖)
    (hhigh : ‖v.real‖ < 2 ^ (60 : ℤ)) : Around (1 / 2 ^ 17) (unit v.real) v.normalize := by
  obtain ⟨k, hk₁, hk₂, hle, hlt⟩ := exists_leading_power hlow hhigh
  have hlength := approx_length hv hk₁ hk₂.le hle hlt
  have hreciprocal := approx_reciprocal_length hv hk₁ hk₂.le hle hlt
  obtain ⟨hx, hy, hz⟩ := hv.approx hlt.le
  have hP : (0 : ℝ) < 2 ^ k := by positivity
  set P : ℝ := 2 ^ k
  have hmul : ∀ {u : Float32}, Approx 0 (P * 2) (val u) u →
      Approx (1 / 2 ^ 18) 2 (‖v.real‖⁻¹ * val u) (u * (1 / v.length)) := by
    intro u hu
    have hb : P * 2 * (1 / P) = 2 := by field_simp
    have hε : P * 2 * (29 / 2 ^ 24 / P) = 58 / 2 ^ 24 := by
      field_simp
      norm_num
    rw [← one_div, mul_comm (1 / ‖v.real‖)]
    refine (hu.mul hreciprocal 1 (by decide) ?_).mono ?_ hb.le
    · rw [hb, hε]
      norm_num
    · rw [hε]
      norm_num
  have hnonzero : (0 : Float32) < v.length := by
    rw [lt_iff_val_lt below_zero.1 hlength.1, val_zero]
    have := (abs_le.mp hlength.2.2).1
    linarith
  rw [normalize, if_pos hnonzero]
  have hround : Around (2 * (1 / 2 ^ 18)) (unit v.real) (v.scale (1 / v.length)) :=
    around_of_approx (hmul hx) (hmul hy) (hmul hz)
  exact hround.mono (by norm_num)

/-- **Normalizing.**  The error of a vector is magnified by twice the reciprocal of its length, and
rounding adds a small constant. -/
theorem Around.normalize (h : Around ε r v) (hε : 2 * ε ≤ ‖r‖) (hlow : 2 ^ (-59 : ℤ) ≤ ‖r‖)
    (hhigh : ‖r‖ ≤ 2 ^ (59 : ℤ)) : Around (1 / 2 ^ 17 + 2 * ε / ‖r‖) (unit r) v.normalize := by
  have hpos : 0 < ‖r‖ := lt_of_lt_of_le (by positivity) hlow
  have hr : r ≠ 0 := norm_pos_iff.mp hpos
  have hpow : (2 : ℝ) ^ (-59 : ℤ) = 2 * 2 ^ (-60 : ℤ) := by norm_num
  have hpow' : (2 : ℝ) ^ (60 : ℤ) = 2 * 2 ^ (59 : ℤ) := by norm_num
  have hbelow := h.le_norm
  have habove := h.norm_le
  have hself := around_normalize_unit h.1 (by linarith) (by linarith)
  refine hself.shift ((norm_unit_sub_le hr _).trans ?_)
  gcongr
  exact h.2

end Vec3

end Arbor
