import Arbor.Proofs.Shape.Grid
import Arbor.Proofs.Shape.Rings
import Mathlib.Analysis.SpecialFunctions.Trigonometric.Bounds

/-!
# The winding of tubes

The corners of a triangle of a tube go along the branch before they go around it, while the places
of a ring are counted counterclockwise about the direction of the branch.  So the triangles face
inward, against the normals of their own corners (`inward_of_straight`); a quadrilateral that is
given counterclockwise as seen from outside would have to go around first.
-/

namespace Arbor

open Number

namespace Space

open scoped RealInnerProductSpace

variable {d : Space}

lemma cross_cross_across (hd : ‖d‖ = 1) : cross d (cross d (across d)) = -across d := by
  have hinner := inner_across d
  have hnorm := norm_sq d
  rw [hd] at hnorm
  rw [inner_eq] at hinner
  ext i
  fin_cases i
  · show cross d (cross d (across d)) 0 = -across d 0
    rw [cross_zero, cross_one, cross_two]
    linear_combination d 0 * hinner + across d 0 * hnorm
  · show cross d (cross d (across d)) 1 = -across d 1
    rw [cross_one, cross_zero, cross_two]
    linear_combination d 1 * hinner + across d 1 * hnorm
  · show cross d (cross d (across d)) 2 = -across d 2
    rw [cross_two, cross_zero, cross_one]
    linear_combination d 2 * hinner + across d 2 * hnorm

/-- Two directions of a ring are at the angle that they are given by. -/
lemma inner_spoke (hd : ‖d‖ = 1) (α β : ℝ) : ⟪spoke d α, spoke d β⟫ = Real.cos (β - α) := by
  have h₁ : ⟪across d, across d⟫ = 1 := by rw [real_inner_self_eq_norm_sq, norm_across hd, one_pow]
  have h₂ : ⟪cross d (across d), cross d (across d)⟫ = 1 := by
    rw [real_inner_self_eq_norm_sq, norm_cross_across hd, one_pow]
  have h₃ := inner_across_cross d
  have h₄ : ⟪cross d (across d), across d⟫ = 0 := by rw [real_inner_comm, h₃]
  rw [spoke, spoke, Real.cos_sub]
  simp only [inner_add_left, inner_add_right, inner_smul_left, inner_smul_right, h₁, h₂, h₃, h₄]
  simp [mul_comm]

/-- A quarter turn about the direction of the branch. -/
lemma cross_spoke (hd : ‖d‖ = 1) (α : ℝ) : cross d (spoke d α) = spoke d (α + Real.pi / 2) := by
  rw [spoke, spoke, cross_add_right, cross_smul_right, cross_smul_right, cross_cross_across hd,
    Real.cos_add_pi_div_two, Real.sin_add_pi_div_two, smul_neg, neg_smul, add_comm]

lemma inner_cross_spoke (hd : ‖d‖ = 1) (α β : ℝ) :
    ⟪cross d (spoke d α), spoke d β⟫ = Real.sin (β - α) := by
  rw [cross_spoke hd, inner_spoke hd, ← Real.cos_sub_pi_div_two]
  ring_nf

/-- The way from one place of a ring to the next, relative to the radius. -/
lemma norm_spoke_sub (hd : ‖d‖ = 1) (α : ℝ) {δ : ℝ} (h0 : 0 ≤ δ) (hδ : δ ≤ 2 * Real.pi) :
    ‖spoke d (α + δ) - spoke d α‖ = 2 * Real.sin (δ / 2) := by
  have hsin : 0 ≤ Real.sin (δ / 2) :=
    Real.sin_nonneg_of_nonneg_of_le_pi (by linarith) (by linarith)
  rw [← sq_eq_sq₀ (norm_nonneg _) (by positivity), norm_sub_sq_real, norm_spoke hd, norm_spoke hd,
    inner_spoke hd, sub_add_cancel_left, Real.cos_neg, mul_pow, Real.sin_sq_eq_half_sub]
  ring_nf

/-- The way from one place of a ring to the next is turned away from both of them by a quarter turn
about the branch. -/
lemma inner_cross_spoke_sub (hd : ‖d‖ = 1) {α β δ : ℝ} (hβ : β = α ∨ β = α + δ) :
    ⟪cross d (spoke d (α + δ) - spoke d α), spoke d β⟫ = -Real.sin δ := by
  have hsub : cross d (spoke d (α + δ) - spoke d α) =
      cross d (spoke d (α + δ)) - cross d (spoke d α) := by
    rw [sub_eq_add_neg, cross_add_right, ← neg_one_smul ℝ, cross_smul_right, neg_one_smul,
      ← sub_eq_add_neg]
  rw [hsub, inner_sub_left, inner_cross_spoke hd, inner_cross_spoke hd]
  rcases hβ with rfl | rfl
  · rw [sub_self, Real.sin_zero, sub_add_cancel_left, Real.sin_neg, sub_zero]
  · rw [sub_self, Real.sin_zero, add_sub_cancel_left, zero_sub]

/-- The sine of an angle up to a third of a turn is half of its chord or more. -/
lemma sin_half_le_sin {δ : ℝ} (hδ : 0 ≤ δ) (hδ' : δ ≤ 2 * Real.pi / 3) :
    2 * Real.sin (δ / 2) * (1 / 2) ≤ Real.sin δ := by
  have hsin : 0 ≤ Real.sin (δ / 2) :=
    Real.sin_nonneg_of_nonneg_of_le_pi (by linarith) (by linarith [Real.pi_pos])
  have hcos : 1 / 2 ≤ Real.cos (δ / 2) := by
    rw [← Real.cos_pi_div_three]
    exact Real.cos_le_cos_of_nonneg_of_le_pi (by linarith) (by linarith [Real.pi_pos]) (by linarith)
  have hdouble : Real.sin δ = 2 * Real.sin (δ / 2) * Real.cos (δ / 2) := by
    rw [← Real.sin_two_mul, mul_div_cancel₀ _ two_ne_zero]
  rw [hdouble]
  gcongr

/-- The sides of a quadrilateral, `gap` along the direction and `δ` around it at the radius `ρ`, are
long when compared with the error `e`. -/
structure LongSides (d : Space) (δ gap ρ e : ℝ) : Prop where
  unit : ‖d‖ = 1
  angle_pos : 0 < δ
  angle_le : δ ≤ 2 * Real.pi / 3
  gap_pos : 0 < gap
  radius_pos : 0 < ρ
  along : e ≤ gap / 16
  around : e ≤ ρ * (2 * Real.sin (δ / 2)) / 16

/-- A face that goes along the branch and then around it is turned away from the normals of its
corners, with some play for all of its data. -/
lemma LongSides.inner_cross_neg {α β δ gap ρ e : ℝ} {x y p q n : Space}
    (h : LongSides d δ gap ρ e) (hβ : β = α ∨ β = α + δ) (hx : ‖x - p‖ ≤ e) (hy : ‖y - q‖ ≤ e)
    (hpq : cross p q = (gap * ρ) • cross d (spoke d (α + δ) - spoke d α))
    (hp : ‖p‖ ≤ gap + ρ * (2 * Real.sin (δ / 2))) (hq : ‖q‖ ≤ gap + ρ * (2 * Real.sin (δ / 2)))
    (hn : ‖n - spoke d β‖ ≤ 1 / 8) : ⟪cross x y, n⟫ < 0 := by
  obtain ⟨hd, hδ, hδ', hgap, hρ, hegap, heρ⟩ := h
  have he : 0 ≤ e := (norm_nonneg _).trans hx
  have hpi := Real.pi_pos
  have hwidth := norm_spoke_sub hd α hδ.le (by linarith)
  have hsin : 0 < Real.sin (δ / 2) := Real.sin_pos_of_pos_of_lt_pi (by linarith) (by linarith)
  have hchord := sin_half_le_sin hδ.le hδ'
  set W := 2 * Real.sin (δ / 2)
  have hW : 0 < W := by positivity
  have hmain : ⟪cross p q, spoke d β⟫ = -(gap * ρ * Real.sin δ) := by
    rw [hpq, real_inner_smul_left, inner_cross_spoke_sub hd hβ, mul_neg]
  have hsize : ‖cross p q‖ ≤ gap * ρ * W := by
    rw [hpq, norm_smul, Real.norm_of_nonneg (by positivity)]
    gcongr
    calc ‖cross d (spoke d (α + δ) - spoke d α)‖ ≤ ‖d‖ * ‖spoke d (α + δ) - spoke d α‖ :=
          norm_cross_le _ _
      _ = W := by rw [hd, one_mul, hwidth]
  have herror : ‖cross x y - cross p q‖ ≤ 65 / 256 * (gap * ρ * W) := by
    refine (norm_cross_sub_le hx hy).trans ?_
    have h₁ : gap * e ≤ gap * (ρ * W / 16) := by gcongr
    have h₂ : ρ * W * e ≤ ρ * W * (gap / 16) := by gcongr
    have h₃ : e * e ≤ gap / 16 * (ρ * W / 16) := by gcongr
    nlinarith
  have hnormal : ‖n‖ ≤ 9 / 8 := by
    have := norm_sub_norm_le n (spoke d β)
    rw [norm_spoke hd] at this
    linarith
  have hsplit : ⟪cross x y, n⟫ = ⟪cross p q, spoke d β⟫ + ⟪cross p q, n - spoke d β⟫ +
      ⟪cross x y - cross p q, n⟫ := by
    rw [inner_sub_left, inner_sub_right]
    ring
  have hpos : 0 < gap * ρ * W := by positivity
  have hturn : ⟪cross p q, n - spoke d β⟫ ≤ gap * ρ * W * (1 / 8) :=
    (real_inner_le_norm _ _).trans (mul_le_mul hsize hn (norm_nonneg _) hpos.le)
  have hrest : ⟪cross x y - cross p q, n⟫ ≤ 65 / 256 * (gap * ρ * W) * (9 / 8) :=
    (real_inner_le_norm _ _).trans (mul_le_mul herror hnormal (norm_nonneg _) (by positivity))
  have hangle : gap * ρ * W * (1 / 2) ≤ gap * ρ * Real.sin δ := by
    have hscaled := mul_le_mul_of_nonneg_left hchord (by positivity : 0 ≤ gap * ρ)
    rwa [← mul_assoc] at hscaled
  rw [hsplit, hmain]
  linarith

/-- The place after the last one of a ring is the first one. -/
lemma spoke_next (d : Space) {j n : ℕ} (hj : j < n) :
    spoke d (2 * Real.pi * (((j + 1) % n : ℕ) / n)) =
      spoke d (2 * Real.pi * (j / n) + 2 * Real.pi / n) := by
  have hn : (n : ℝ) ≠ 0 := by
    have : 0 < n := (Nat.zero_le j).trans_lt hj
    positivity
  have hsum : 2 * Real.pi * (j / n) + 2 * Real.pi / n = 2 * Real.pi * ((j + 1 : ℕ) / n) := by
    push_cast
    field_simp
  rw [hsum]
  rcases (Nat.succ_le_of_lt hj).lt_or_eq with hlt | heq
  · rw [Nat.mod_eq_of_lt hlt]
  · have heq' : j + 1 = n := heq
    rw [heq', Nat.mod_self, div_self hn]
    simp [spoke]

end Space

namespace Branch

open Space Mesh

open scoped RealInnerProductSpace

/-- Samples that keep to a line within `ε`, advance along it by `gap` or more at each step, and lie
in a box of which `2 ^ m` is four times the size.  The line is not near the height at which rings
choose another frame. -/
structure Straight (samples : List Sample) (c d : Space) (place : ℕ → ℝ) (ε gap : ℝ) (m : ℤ) :
    Prop where
  unit : ‖d‖ = 1
  choice : 1 / 16 ≤ |(|d 2| - 9 / 10)|
  around : ∀ (i : ℕ) (s : Sample), samples[i]? = some s → s.position.Around ε (c + place i • d)
  inside : ∀ i < samples.length, ‖c + place i • d‖ ≤ 2 ^ m / 4
  apart : ∀ i, i + 1 < samples.length → place i + gap ≤ place (i + 1)

/-- A branch whose samples run straight, with rings of one radius.  The distances between samples
and the radius are large when compared with how far the samples are off the line and with the unit
of rounding. -/
structure StraightTube (b : Branch) (resolution sides : ℕ) (c d : Space) (place : ℕ → ℝ)
    (ε gap : ℝ) (m : ℤ) (radius : Float32) : Prop where
  straight : Straight (b.sample resolution) c d place ε gap m
  radius_eq : ∀ s ∈ b.sample resolution, s.radius * b.bevel = radius
  finite : IsFinite radius
  two_le : 2 ≤ (b.sample resolution).length
  three_le : 3 ≤ sides
  le_sides : sides ≤ 64
  indexed : (b.sample resolution).length * sides < 2 ^ 32
  scale : -20 ≤ m ∧ m ≤ 30
  fine : 2 ^ 13 * sides * (ε + 2 ^ m / 2 ^ 23) ≤ gap
  coarse : 2 ^ 6 * sides * (ε + 2 ^ m / 2 ^ 23) ≤ val radius
  slim : val radius ≤ 4 * gap
  within : val radius ≤ 2 ^ m / 2

/-- How far a vertex of a tube may be off its place. -/
noncomputable def play (gap ρ : ℝ) (sides : ℕ) : ℝ := min (gap / 32) (ρ / (8 * sides))

lemma play_le (gap ρ : ℝ) (sides : ℕ) : play gap ρ sides ≤ gap / 32 := min_le_left _ _

/-- The play is small when compared with the way from one place of a ring to the next. -/
lemma play_le_sin {gap ρ : ℝ} {sides : ℕ} (hρ : 0 < ρ) (hsides : 2 ≤ sides) :
    2 * play gap ρ sides ≤ ρ * (2 * Real.sin (Real.pi / sides)) / 16 := by
  have hpi := Real.pi_pos
  have hpos : (0 : ℝ) < sides := by positivity
  have hsin : 2 / sides ≤ Real.sin (Real.pi / sides) := by
    have hhalf : Real.pi / sides ≤ Real.pi / 2 := by gcongr; exact_mod_cast hsides
    refine le_trans (le_of_eq ?_) (Real.mul_le_sin (by positivity) hhalf)
    field_simp
  calc 2 * play gap ρ sides ≤ 2 * (ρ / (8 * sides)) := by gcongr; exact min_le_right _ _
    _ = ρ * (2 * (2 / sides)) / 16 := by ring
    _ ≤ ρ * (2 * Real.sin (Real.pi / sides)) / 16 := by gcongr

variable {b : Branch} {resolution sides : ℕ} {c d : Space} {place : ℕ → ℝ} {ε gap : ℝ} {m : ℤ}
  {radius : Float32} {i j : ℕ}

namespace StraightTube

variable (h : StraightTube b resolution sides c d place ε gap m radius)

include h

lemma epsilon_nonneg : 0 ≤ ε := by
  have hlen := h.two_le
  have hs : (b.sample resolution)[0]? = some (b.sample resolution)[0] :=
    List.getElem?_eq_getElem (by omega)
  exact (norm_nonneg _).trans (h.straight.around 0 _ hs).2

lemma unit_le : 2 ^ 13 * 3 * (ε + 2 ^ m / 2 ^ 23) ≤ gap := by
  have hε := h.epsilon_nonneg
  have hsides : (3 : ℝ) ≤ sides := by exact_mod_cast h.three_le
  refine le_trans ?_ h.fine
  gcongr

lemma gap_pos : 0 < gap := by
  have hε := h.epsilon_nonneg
  have hm : (0 : ℝ) < 2 ^ m := by positivity
  linarith [h.unit_le]

lemma resolved : Resolved Float32 m := by
  have := h.scale
  show -149 ≤ m + 1 - 24 ∧ m + 1 < 128
  omega

lemma unit_le_radius : 2 ^ 6 * 3 * (ε + 2 ^ m / 2 ^ 23) ≤ val radius := by
  have hε := h.epsilon_nonneg
  have hsides : (3 : ℝ) ≤ sides := by exact_mod_cast h.three_le
  refine le_trans ?_ h.coarse
  gcongr

lemma radius_pos : 0 < val radius := by
  have hε := h.epsilon_nonneg
  exact lt_of_lt_of_le (by positivity) h.unit_le_radius

lemma scale_le : (2 : ℝ) ^ (-20 : ℤ) ≤ 2 ^ m ∧ (2 : ℝ) ^ m ≤ 2 ^ (30 : ℤ) :=
  ⟨zpow_le_zpow_right₀ one_le_two h.scale.1, zpow_le_zpow_right₀ one_le_two h.scale.2⟩

lemma place_sub_le (hi : i < (b.sample resolution).length) (hj : j < (b.sample resolution).length) :
    place j - place i ≤ 2 ^ m / 2 := by
  have hdiff : (c + place j • d) - (c + place i • d) = (place j - place i) • d := by
    rw [sub_smul]
    abel
  have hnorm := norm_sub_le (c + place j • d) (c + place i • d)
  rw [hdiff, norm_smul, h.straight.unit, mul_one, Real.norm_eq_abs] at hnorm
  linarith [le_abs_self (place j - place i), h.straight.inside i hi, h.straight.inside j hj]

lemma gap_le : gap ≤ 2 ^ m / 2 := by
  have hlen := h.two_le
  linarith [h.straight.apart 0 (by omega), h.place_sub_le (i := 0) (j := 1) (by omega) (by omega)]

/-- The sample before one and the sample after it are a step or more apart. -/
lemma gap_le_around (hi : i < (b.sample resolution).length) :
    place (i - 1) + gap ≤ place (min (i + 1) ((b.sample resolution).length - 1)) := by
  have hlen := h.two_le
  have hgap := h.gap_pos
  rcases Nat.eq_zero_or_pos i with rfl | hpos
  · rw [Nat.min_eq_left (by omega)]
    exact h.straight.apart 0 (by omega)
  · have hbefore := h.straight.apart (i - 1) (by omega)
    rw [Nat.sub_add_cancel hpos] at hbefore
    rcases Nat.lt_or_ge (i + 1) (b.sample resolution).length with hlt | hge
    · rw [Nat.min_eq_left (by omega)]
      linarith [h.straight.apart i hlt]
    · rwa [Nat.min_eq_right (by omega), show (b.sample resolution).length - 1 = i by omega]

/-- The direction at a sample is that of the line. -/
lemma around_heading {heading : Vec3} (hi : (headings (b.sample resolution))[i]? = some heading) :
    heading.normalize.Around (1 / 2 ^ 17 + 4 * (ε + 2 ^ m / 2 ^ 23) / gap) d := by
  have hε := h.epsilon_nonneg
  have hgap := h.gap_pos
  have hunit := h.unit_le
  have hle := h.gap_le
  have hm : (0 : ℝ) < 2 ^ m := by positivity
  have hlt : i < (b.sample resolution).length := by
    have := (List.getElem?_eq_some_iff.mp hi).1
    rwa [length_headings] at this
  have hapart := h.gap_le_around hlt
  set samples := b.sample resolution
  set k := min (i + 1) (samples.length - 1)
  have hk : k < samples.length := by omega
  have hbefore : i - 1 < samples.length := by omega
  obtain ⟨p, hp⟩ : ∃ p, samples[i - 1]? = some p := ⟨_, List.getElem?_eq_getElem hbefore⟩
  obtain ⟨q, hq⟩ : ∃ q, samples[k]? = some q := ⟨_, List.getElem?_eq_getElem hk⟩
  rw [getElem?_headings hlt hp hq, Option.some_inj] at hi
  subst hi
  have hpow : (2 : ℝ) ^ (m + 1) = 2 ^ m * 2 := zpow_add_one₀ (by norm_num) m
  have hinside := h.straight.inside k hk
  have hinside' := h.straight.inside (i - 1) hbefore
  have hsub := (h.straight.around k q hq).sub (h.straight.around (i - 1) p hp) m h.resolved (by
    rw [hpow]
    norm_num at hunit
    linarith)
  have hline : c + place k • d - (c + place (i - 1) • d) = (place k - place (i - 1)) • d := by
    rw [sub_smul]
    abel
  have hstep : gap ≤ place k - place (i - 1) := by linarith
  have hsize : ‖(place k - place (i - 1)) • d‖ = place k - place (i - 1) := by
    rw [norm_smul, h.straight.unit, mul_one, Real.norm_of_nonneg (by linarith)]
  obtain ⟨hlow, hhigh⟩ := h.scale_le
  have hfar := h.place_sub_le hbefore hk
  rw [hline] at hsub
  norm_num at hunit hlow hhigh
  have hnormalize := hsub.normalize (by rw [hsize]; linarith)
    (by rw [hsize]; norm_num; linarith) (by rw [hsize]; norm_num; linarith)
  rw [unit_smul (by linarith) h.straight.unit, hsize] at hnormalize
  refine hnormalize.mono ?_
  have hdiv : 2 * (ε + ε + 2 ^ m / 2 ^ 23) / (place k - place (i - 1)) ≤
      4 * (ε + 2 ^ m / 2 ^ 23) / gap :=
    div_le_div₀ (by positivity) (by linarith) hgap hstep
  linarith

/-- How far a heading may be off its line. -/
lemma heading_error_le : 1 / 2 ^ 17 + 4 * (ε + 2 ^ m / 2 ^ 23) / gap ≤
    1 / 2 ^ 17 + 1 / (2 ^ 11 * sides) := by
  have hgap := h.gap_pos
  have hthree : (3 : ℝ) ≤ sides := by exact_mod_cast h.three_le
  refine add_le_add le_rfl ?_
  rw [div_le_div_iff₀ hgap (by positivity)]
  linarith [h.fine]

/-- What the heading, the sample and rounding move a place of a ring by is within its play. -/
lemma position_error_le :
    ε + val radius * (35 * (1 / 2 ^ 17 + 4 * (ε + 2 ^ m / 2 ^ 23) / gap) + 1 / 2 ^ 10) +
      2 ^ m / 2 ^ 23 ≤ play gap (val radius) sides := by
  have hunit := h.unit_le
  have hcoarse := h.coarse
  have hslim := h.slim
  have hthree : (3 : ℝ) ≤ sides := by exact_mod_cast h.three_le
  have hsixty : (sides : ℝ) ≤ 64 := by exact_mod_cast h.le_sides
  have hη := h.heading_error_le
  set τ := ε + 2 ^ m / 2 ^ 23 with hτ
  set η := 1 / 2 ^ 17 + 4 * τ / gap
  set ρ := val radius
  have hρpos : 0 < ρ := h.radius_pos
  -- The errors by the way from one place of the ring to the next, about six times `w`.
  set w := ρ / sides with hw
  have hρ : ρ = sides * w := by
    rw [hw]
    field_simp
  have hwpos : 0 < w := by positivity
  have hτw : 2 ^ 6 * τ ≤ w := by
    rw [hw, le_div_iff₀ (by linarith)]
    linarith
  have hw₁ : ρ ≤ 64 * w := by rw [hρ]; gcongr
  have hw₂ : 3 * w ≤ ρ := by rw [hρ]; gcongr
  have hηw : ρ * η ≤ ρ / 2 ^ 17 + w / 2 ^ 11 := by
    have hscaled := mul_le_mul_of_nonneg_left hη hρpos.le
    have hsplit : ρ * (1 / 2 ^ 17 + 1 / (2 ^ 11 * sides)) = ρ / 2 ^ 17 + w / 2 ^ 11 := by
      rw [hw]
      ring
    rwa [hsplit] at hscaled
  have herror : ε + ρ * (35 * η + 1 / 2 ^ 10) + 2 ^ m / 2 ^ 23 =
      τ + 35 * (ρ * η) + ρ / 2 ^ 10 := by
    rw [hτ]
    ring
  have heighth : ρ / (8 * sides) = w / 8 := by rw [hw]; ring
  rw [herror, play, heighth, le_min_iff]
  norm_num at hunit hηw ⊢
  constructor <;> linarith

/-- A vertex is near its place on the circle about the line, and its normal points away from the
line. -/
lemma exists_vertex (hi : i < (b.sample resolution).length) (hj : j < sides) :
    ∃ v, (b.toMesh resolution sides).vertices[i * sides + j]? = some v ∧
      v.position.Around (play gap (val radius) sides)
        (c + place i • d + val radius • spoke d (2 * Real.pi * (j / sides))) ∧
      v.normal.Around (1 / 8) (spoke d (2 * Real.pi * (j / sides))) := by
  have hε := h.epsilon_nonneg
  have hunit := h.unit_le
  have hle := h.gap_le
  have hwithin := h.within
  have hinside := h.straight.inside i hi
  have hm : (0 : ℝ) < 2 ^ m := by positivity
  have hpow : (2 : ℝ) ^ (m + 1) = 2 ^ m * 2 := zpow_add_one₀ (by norm_num) m
  obtain ⟨hlow, hhigh⟩ := h.scale_le
  obtain ⟨s, hs⟩ : ∃ s, (b.sample resolution)[i]? = some s := ⟨_, List.getElem?_eq_getElem hi⟩
  obtain ⟨heading, hheading⟩ : ∃ heading, (headings (b.sample resolution))[i]? = some heading :=
    ⟨_, List.getElem?_eq_getElem (by rwa [length_headings])⟩
  obtain ⟨v, hv⟩ : ∃ v, (ring s.position heading.normalize (s.radius * b.bevel) sides
      (part i ((b.sample resolution).length - 1)))[j]? = some v :=
    ⟨_, List.getElem?_eq_getElem (by rwa [length_ring])⟩
  refine ⟨v, ?_, ?_⟩
  · rw [vertex_toMesh h.two_le h.three_le hj, getElem?_rings hs hheading, Option.bind_some, hv]
  rw [h.radius_eq s (List.mem_of_getElem? hs)] at hv
  have hη : 1 / 2 ^ 17 + 4 * (ε + 2 ^ m / 2 ^ 23) / gap ≤ 1 / 2 ^ 17 + 1 / (2 ^ 11 * 3) := by
    have hthree : (3 : ℝ) ≤ sides := by exact_mod_cast h.three_le
    refine h.heading_error_le.trans ?_
    gcongr
  have hρ := h.unit_le_radius
  norm_num at hlow hhigh hunit hρ
  obtain ⟨hposition, hnormal⟩ := around_ring (h.around_heading hheading) h.straight.unit
    (by norm_num at hη ⊢; linarith) h.straight.choice h.finite
    (by norm_num; linarith) (by norm_num; linarith) hj (by have := h.le_sides; omega)
    (h.straight.around i s hs) h.resolved (by rw [hpow]; linarith) hv
  refine ⟨hposition.mono h.position_error_le, hnormal.mono ?_⟩
  norm_num at hη ⊢
  linarith

end StraightTube

/-! ## The faces -/

/-- A vertex `k` rings and `l` places on from the first corner of a quadrilateral of a tube, whose
sides go by `gap` along the branch, and at the radius `ρ` around it from the angle `α` to `α + δ`. -/
structure Corner (d first : Space) (α δ gap ρ e : ℝ) (k l : ℕ) (v : Vertex) : Prop where
  position : v.position.Around e
    (first + ((k * gap) • d + (l * ρ) • (spoke d (α + δ) - spoke d α)))
  normal : v.normal.Around (1 / 8) (spoke d (α + l * δ))

section Corners

variable {d first : Space} {α δ gap ρ e : ℝ} {k l k' l' : ℕ} {a v w : Vertex}

/-- The side from the first corner to another one. -/
lemma Corner.norm_side_sub_le (hv : Corner d first α δ gap ρ e k l v)
    (ha : Corner d first α δ gap ρ e 0 0 a) :
    ‖v.position.real - a.position.real -
      ((k * gap) • d + (l * ρ) • (spoke d (α + δ) - spoke d α))‖ ≤ 2 * e := by
  have hdiff := hv.position.norm_sub_sub_le ha.position
  rw [Nat.cast_zero, zero_mul, zero_mul, zero_smul, zero_smul, add_zero, add_zero,
    add_sub_cancel_left] at hdiff
  exact hdiff.trans (two_mul e).ge

lemma Corner.exists_angle (hv : Corner d first α δ gap ρ e k l v) (hl : l ≤ 1) :
    ∃ β, (β = α ∨ β = α + δ) ∧ ‖v.normal.real - spoke d β‖ ≤ 1 / 8 := by
  refine ⟨_, ?_, hv.normal.2⟩
  interval_cases l <;> simp

/-- No side is longer than the way along the branch and the way around it. -/
lemma norm_side_le (h : LongSides d δ gap ρ e) (α : ℝ) (hk : k ≤ 1) (hl : l ≤ 1) :
    ‖(k * gap) • d + (l * ρ) • (spoke d (α + δ) - spoke d α)‖ ≤
      gap + ρ * (2 * Real.sin (δ / 2)) := by
  obtain ⟨hd, hδ, hδ', hgap, hρ, -, -⟩ := h
  have hpi := Real.pi_pos
  have hsin : 0 ≤ Real.sin (δ / 2) :=
    Real.sin_nonneg_of_nonneg_of_le_pi (by linarith) (by linarith)
  refine (norm_add_le _ _).trans ?_
  rw [norm_smul, norm_smul, hd, norm_spoke_sub hd α hδ.le (by linarith), mul_one,
    Real.norm_of_nonneg (by positivity), Real.norm_of_nonneg (by positivity)]
  gcongr
  · exact mul_le_of_le_one_left hgap.le (by exact_mod_cast hk)
  · exact mul_le_of_le_one_left hρ.le (by exact_mod_cast hl)

/-- The vector product of two sides that come in the order from along the branch to around it. -/
lemma cross_sides (u : Space) (hdet : k * l' = l * k' + 1) :
    cross ((k * gap) • d + (l * ρ) • u) ((k' * gap) • d + (l' * ρ) • u) =
      (gap * ρ) • cross d u := by
  have hdet' : (k : ℝ) * l' = l * k' + 1 := by exact_mod_cast hdet
  have hswap := cross_swap u d
  have hscale : gap * ρ = k * gap * (l' * ρ) - l * ρ * (k' * gap) := by
    linear_combination -(gap * ρ) * hdet'
  rw [hscale, cross_add_left, cross_add_right, cross_add_right]
  simp only [cross_smul_left, cross_smul_right, Space.cross_self, hswap]
  module

/-- A triangle whose sides from the first corner come in this order is turned away from the normals
of all of its corners. -/
lemma Corner.inner_cross_neg (ha : Corner d first α δ gap ρ e 0 0 a)
    (hv : Corner d first α δ gap ρ e k l v) (hw : Corner d first α δ gap ρ e k' l' w)
    (h : LongSides d δ gap ρ (2 * e)) (hk : k ≤ 1) (hl : l ≤ 1) (hk' : k' ≤ 1) (hl' : l' ≤ 1)
    (hdet : k * l' = l * k' + 1) :
    ∀ u ∈ [a, v, w], ⟪cross (v.position.real - a.position.real)
      (w.position.real - a.position.real), u.normal.real⟫ < 0 := by
  have hface : ∀ u : Vertex, (∃ β, (β = α ∨ β = α + δ) ∧ ‖u.normal.real - spoke d β‖ ≤ 1 / 8) →
      ⟪cross (v.position.real - a.position.real) (w.position.real - a.position.real),
        u.normal.real⟫ < 0 := by
    rintro u ⟨β, hβ, hu⟩
    exact h.inner_cross_neg hβ (hv.norm_side_sub_le ha) (hw.norm_side_sub_le ha)
      (cross_sides _ hdet) (norm_side_le h α hk hl) (norm_side_le h α hk' hl') hu
  simp only [List.forall_mem_cons]
  exact ⟨hface a (ha.exists_angle zero_le_one), hface v (hv.exists_angle hl),
    hface w (hw.exists_angle hl'), fun _ h => absurd h List.not_mem_nil⟩

end Corners

/-- Neighbours on a tube are far apart when compared with the play of its vertices. -/
lemma StraightTube.longSides (h : StraightTube b resolution sides c d place ε gap m radius)
    (hi : i + 1 < (b.sample resolution).length) :
    LongSides d (2 * Real.pi / sides) (place (i + 1) - place i) (val radius)
      (2 * play gap (val radius) sides) := by
  have hthree : (3 : ℝ) ≤ sides := by exact_mod_cast h.three_le
  have hgap := h.gap_pos
  have hstep := h.straight.apart i hi
  refine ⟨h.straight.unit, by positivity, by gcongr, by linarith, h.radius_pos, ?_, ?_⟩
  · linarith [play_le gap (val radius) sides]
  · have hhalf : 2 * Real.pi / sides / 2 = Real.pi / sides := by ring
    rw [hhalf]
    exact play_le_sin h.radius_pos (by have := h.three_le; omega)

/-- The vertices at a place and next to it are the corners of a quadrilateral. -/
lemma StraightTube.exists_corner (h : StraightTube b resolution sides c d place ε gap m radius)
    (hi : i + 1 < (b.sample resolution).length) (hj : j < sides) {k l : ℕ} (hk : k ≤ 1)
    (hl : l ≤ 1) :
    ∃ v, (b.toMesh resolution sides).vertices[(i + k) * sides + (j + l) % sides]? = some v ∧
      Corner d (c + place i • d + val radius • spoke d (2 * Real.pi * (j / sides)))
        (2 * Real.pi * (j / sides)) (2 * Real.pi / sides) (place (i + 1) - place i) (val radius)
        (play gap (val radius) sides) k l v := by
  have hsides := h.three_le
  have hplace : place (i + k) = place i + k * (place (i + 1) - place i) := by
    interval_cases k <;> simp
  have hspoke : spoke d (2 * Real.pi * (((j + l) % sides : ℕ) / sides)) =
      spoke d (2 * Real.pi * (j / sides) + l * (2 * Real.pi / sides)) := by
    interval_cases l
    · simp [Nat.mod_eq_of_lt hj]
    · simpa using spoke_next d hj
  obtain ⟨v, hv, hposition, hnormal⟩ :=
    h.exists_vertex (i := i + k) (j := (j + l) % sides) (by omega) (Nat.mod_lt _ (by omega))
  rw [hspoke] at hposition hnormal
  refine ⟨v, hv, ?_, hnormal⟩
  have hcenter : c + place (i + k) • d + val radius •
        spoke d (2 * Real.pi * (j / sides) + l * (2 * Real.pi / sides)) =
      c + place i • d + val radius • spoke d (2 * Real.pi * (j / sides)) +
        ((k * (place (i + 1) - place i)) • d + (l * val radius) •
          (spoke d (2 * Real.pi * (j / sides) + 2 * Real.pi / sides) -
            spoke d (2 * Real.pi * (j / sides)))) := by
    rw [hplace]
    interval_cases l
    · simp only [Nat.cast_zero, zero_mul, add_zero]
      module
    · simp only [Nat.cast_one, one_mul]
      module
  exact hcenter ▸ hposition

/-- **Winding.**  Every triangle of a straight tube faces inward: its face normal is turned away
from the normals of all of its corners. -/
theorem inward_of_straight (h : StraightTube b resolution sides c d place ε gap m radius) {t : ℕ}
    (ht : t < (b.toMesh resolution sides).triangleCount) :
    ∃ v₀ v₁ v₂, (b.toMesh resolution sides).corner? t 0 = some v₀ ∧
      (b.toMesh resolution sides).corner? t 1 = some v₁ ∧
      (b.toMesh resolution sides).corner? t 2 = some v₂ ∧
      ∀ v ∈ [v₀, v₁, v₂], ⟪cross (v₁.position.real - v₀.position.real)
        (v₂.position.real - v₀.position.real), v.normal.real⟫ < 0 := by
  obtain ⟨i, j, hi, hj, htri⟩ := exists_place_of_lt h.two_le h.three_le ht
  have hlong := h.longSides hi
  obtain ⟨a, ha, hac⟩ := h.exists_corner hi hj (k := 0) (l := 0) zero_le_one zero_le_one
  obtain ⟨a', ha', hac'⟩ := h.exists_corner hi hj (k := 1) (l := 0) le_rfl zero_le_one
  obtain ⟨z, hz, hzc⟩ := h.exists_corner hi hj (k := 0) (l := 1) zero_le_one le_rfl
  obtain ⟨z', hz', hzc'⟩ := h.exists_corner hi hj (k := 1) (l := 1) le_rfl le_rfl
  rw [add_zero, add_zero, Nat.mod_eq_of_lt hj] at ha
  rw [add_zero, Nat.mod_eq_of_lt hj] at ha'
  rw [add_zero] at hz
  rcases htri with rfl | rfl
  · -- Along the branch, and then around it.
    obtain ⟨h₀, h₁, h₂⟩ := corner_lower h.two_le h.three_le h.indexed hi hj
    exact ⟨a, a', z', h₀.trans ha, h₁.trans ha', h₂.trans hz',
      hac.inner_cross_neg hac' hzc' hlong le_rfl zero_le_one le_rfl le_rfl rfl⟩
  · -- Both at once, and then back along the branch.
    obtain ⟨h₀, h₁, h₂⟩ := corner_upper h.two_le h.three_le h.indexed hi hj
    exact ⟨a, z', z, h₀.trans ha, h₁.trans hz', h₂.trans hz,
      hac.inner_cross_neg hzc' hzc hlong le_rfl le_rfl zero_le_one le_rfl rfl⟩

/-- A tube that goes up by one from the origin, as wide as it is long, with three sides. -/
def upright : Branch := ofSamples [⟨.zero, 1⟩, ⟨.unitZ, 1⟩] 0 1

lemma sample_upright : upright.sample 1 = [⟨.zero, 1⟩, ⟨.unitZ, 1⟩] := by decide +kernel

lemma straight_upright : Straight (upright.sample 1) 0 axisZ (fun i => i) 0 1 2 where
  unit := norm_axisZ
  choice := by
    have hz : axisZ 2 = 1 := rfl
    norm_num [hz]
  around i s hs := by
    rw [sample_upright] at hs
    match i with
    | 0 =>
      cases hs
      simpa using Vec3.around_zero
    | 1 =>
      cases hs
      simpa using Vec3.around_unitZ
    | i + 2 => simp at hs
  inside i hi := by
    rw [sample_upright, List.length_cons, List.length_singleton] at hi
    rw [zero_add, norm_smul, norm_axisZ, mul_one, Real.norm_natCast]
    norm_num
    exact Nat.le_of_lt_succ hi
  apart i _ := by norm_num

lemma straightTube_upright : StraightTube upright 1 3 0 axisZ (fun i => i) 0 1 2 1 where
  straight := straight_upright
  radius_eq s hs := by
    have hall : ∀ s ∈ upright.sample 1, s.radius * upright.bevel = 1 := by decide +kernel
    exact hall s hs
  finite := below_one.1
  two_le := by rw [sample_upright]; rfl
  three_le := le_rfl
  le_sides := by norm_num
  indexed := by rw [sample_upright]; decide
  scale := by norm_num
  fine := by norm_num
  coarse := by rw [val_one]; norm_num
  slim := by rw [val_one]; norm_num
  within := by rw [val_one]; norm_num

/-- All six triangles of a tube with three sides face inward. -/
theorem inward_of_straight_upright : StraightTube upright 1 3 0 axisZ (fun i => i) 0 1 2 1 ∧
    (upright.toMesh 1 3).triangleCount = 6 ∧
    ∀ t < 6, ∃ v₀ v₁ v₂, (upright.toMesh 1 3).corner? t 0 = some v₀ ∧
      (upright.toMesh 1 3).corner? t 1 = some v₁ ∧ (upright.toMesh 1 3).corner? t 2 = some v₂ ∧
      ∀ v ∈ [v₀, v₁, v₂], ⟪cross (v₁.position.real - v₀.position.real)
        (v₂.position.real - v₀.position.real), v.normal.real⟫ < 0 := by
  have hcount : (upright.toMesh 1 3).triangleCount = 6 := by decide +kernel
  exact ⟨straightTube_upright, hcount, fun t ht =>
    inward_of_straight straightTube_upright (hcount.symm ▸ ht)⟩

/-- In the numbers of the program too: the face of the first triangle is not degenerate, and it is
turned away from the normal of each of its corners. -/
theorem exists_inward_face : ∃ v₀ v₁ v₂ : Vertex, (upright.toMesh 1 3).corner? 0 0 = some v₀ ∧
    (upright.toMesh 1 3).corner? 0 1 = some v₁ ∧ (upright.toMesh 1 3).corner? 0 2 = some v₂ ∧
    (v₁.position - v₀.position).cross (v₂.position - v₀.position) ≠ .zero ∧
    ∀ v ∈ [v₀, v₁, v₂],
      ((v₁.position - v₀.position).cross (v₂.position - v₀.position)).dot v.normal < 0 := by
  obtain ⟨⟨v₀, h₀⟩, ⟨v₁, h₁⟩, ⟨v₂, h₂⟩⟩ :
      (∃ v, (upright.toMesh 1 3).corner? 0 0 = some v) ∧
      (∃ v, (upright.toMesh 1 3).corner? 0 1 = some v) ∧
      (∃ v, (upright.toMesh 1 3).corner? 0 2 = some v) := by
    simp only [← Option.isSome_iff_exists]
    decide +kernel
  have hface : ∀ v₀ ∈ (upright.toMesh 1 3).corner? 0 0, ∀ v₁ ∈ (upright.toMesh 1 3).corner? 0 1,
      ∀ v₂ ∈ (upright.toMesh 1 3).corner? 0 2,
      (v₁.position - v₀.position).cross (v₂.position - v₀.position) ≠ .zero ∧
      ∀ v ∈ [v₀, v₁, v₂],
        ((v₁.position - v₀.position).cross (v₂.position - v₀.position)).dot v.normal < 0 := by
    decide +kernel
  exact ⟨v₀, v₁, v₂, h₀, h₁, h₂, hface v₀ h₀ v₁ h₁ v₂ h₂⟩

end Branch

end Arbor
