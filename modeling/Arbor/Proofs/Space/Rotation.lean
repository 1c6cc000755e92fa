import Arbor.Proofs.Number.ArcCosine
import Arbor.Proofs.Number.Circular
import Arbor.Proofs.Space.Magnitude
import Arbor.Space.Frame

/-!
# Rotations keep directions small

A rotation by any finite angle about any finite axis leaves a frame whose directions are in a box
that does not depend on either (`straight_rotatedWorld`): the products may be large, but the frame
is straightened before it is used.  The angle between two directions is finite too
(`below_angleTo`).
-/

namespace Arbor

open Number

/-! ## Angles between directions -/

namespace Number

lemma val_neg_one : val (-1 : Float32) = -1 := by
  rw [(finite_neg below_one.1).2, val_one]

lemma abs_val_clamp_le {x : Float32} (hx : IsFinite x) :
    IsFinite (clamp x (-1) 1) ∧ |val (clamp x (-1) 1)| ≤ 1 := by
  have hneg : IsFinite (-1 : Float32) := below_one.neg.1
  unfold clamp
  split_ifs with hlow hhigh
  · rw [val_neg_one]
    exact ⟨hneg, by norm_num⟩
  · rw [val_one]
    exact ⟨below_one.1, by norm_num⟩
  · rw [lt_iff_val_lt hx hneg, val_neg_one, not_lt] at hlow
    rw [lt_iff_val_lt below_one.1 hx, val_one, not_lt] at hhigh
    exact ⟨hx, abs_le.mpr ⟨hlow, hhigh⟩⟩

lemma val_epsilon : val epsilon = 1 / 2 ^ 23 := by
  rw [epsilon, val_ofBits_of_lt (by decide)]
  simp only [UInt32.reduceToNat]
  norm_num [magnitude_binary32]

lemma isFinite_epsilon : IsFinite epsilon := isFinite_iff.mp (by decide)

end Number

namespace Vec3

variable {a b axis : Vec3} {k m : ℕ} {sine cosine : Float32}

/-- The quotient is bounded, as lengths that are too small are not divided by. -/
lemma below_angleTo (ha : Boxed 1 a) (hb : Boxed 1 b) : Below 16 (a.angleTo b) := by
  have hlengths : Below 4 (a.length * b.length) :=
    (below_length ha (by norm_num)).mul_single (below_length hb (by norm_num)) le_rfl
      (by norm_num)
  unfold angleTo
  dsimp only
  split_ifs with hsmall
  · exact below_zero.mono (by norm_num)
  · rw [le_iff_val_le hlengths.1 isFinite_epsilon, val_epsilon, not_le] at hsmall
    have hpos : 0 < val (a.length * b.length) := lt_trans (by positivity) hsmall
    have hdot : Below 4 (a.dot b) := ha.dot hb le_rfl (by norm_num)
    have hquotient : Below 27 (a.dot b / (a.length * b.length)) := by
      apply below_div (by decide) hdot.1 hlengths.1 hpos.ne'
      rw [abs_div, abs_of_pos hpos, div_le_iff₀ hpos]
      have := hdot.2
      norm_num at this hsmall ⊢
      linarith
    obtain ⟨hfinite, hle⟩ := abs_val_clamp_le hquotient.1
    exact below_acos hfinite hle

/-! ## Rotation of a vector -/

lemma boxed_rotateBy (ha : Boxed 0 a) (haxis : Boxed 1 axis) (hsine : Below m sine)
    (hcosine : Below m cosine) (hm : m ≤ 120) : Boxed (m + 6) (a.rotateBy axis sine cosine) := by
  have halong : Boxed m (a.scale cosine) := ha.scale hcosine (by omega) (by omega)
  have hcross : Boxed 2 (axis.cross a) := haxis.cross ha (by norm_num) (by norm_num)
  have hside : Boxed (m + 2) ((axis.cross a).scale sine) :=
    hcross.scale hsine (by omega) (by omega)
  have hsum : Boxed (m + 3) (a.scale cosine + (axis.cross a).scale sine) :=
    halong.add hside (by omega) (by omega) (by omega)
  have hdot : Below 3 (axis.dot a) := haxis.dot ha le_rfl (by norm_num)
  have hrest : Below (m + 1) (1 - cosine) :=
    below_one.sub_single hcosine (by omega) (by omega) (by omega)
  have hfactor : Below (m + 4) (axis.dot a * (1 - cosine)) :=
    hdot.mul_single hrest (by omega) (by omega)
  have haxial : Boxed (m + 5) (axis.scale (axis.dot a * (1 - cosine))) :=
    haxis.scale hfactor (by omega) (by omega)
  exact hsum.add haxial (by omega) (by omega) (by omega)

lemma boxed_unitX : Boxed 0 unitX := ⟨below_one, below_zero, below_zero⟩

lemma boxed_unitY : Boxed 0 unitY := ⟨below_zero, below_one, below_zero⟩

lemma boxed_unitZ : Boxed 0 unitZ := ⟨below_zero, below_zero, below_one⟩

end Vec3

/-! ## Frames -/

namespace Frame

/-- Directions in a box. -/
structure Boxed (k : ℕ) (f : Frame) : Prop where
  right : f.right.Boxed k
  up : f.up.Boxed k
  forward : f.forward.Boxed k

/-- The boxes of a frame that has been straightened. -/
structure Straight (f : Frame) : Prop where
  right : f.right.Boxed 1
  up : f.up.Boxed 3
  forward : f.forward.Boxed 1

variable {f g : Frame} {axis v : Vec3} {angle : Float32} {k l m n : ℕ}

lemma Straight.boxed (h : f.Straight) : f.Boxed 3 :=
  ⟨h.right.mono (by norm_num), h.up, h.forward.mono (by norm_num)⟩

lemma straight_identity : identity.Straight where
  right := Vec3.boxed_unitX.mono (by norm_num)
  up := Vec3.boxed_unitY.mono (by norm_num)
  forward := Vec3.boxed_unitZ.mono (by norm_num)

lemma isFinite_eq_true_iff :
    f.isFinite = true ↔ f.right.Finite ∧ f.up.Finite ∧ f.forward.Finite := by
  rw [isFinite, Bool.and_eq_true, Bool.and_eq_true, Vec3.isFinite_eq_true_iff,
    Vec3.isFinite_eq_true_iff, Vec3.isFinite_eq_true_iff, and_assoc]

lemma Boxed.finite (h : f.Boxed k) : f.isFinite = true :=
  isFinite_eq_true_iff.mpr ⟨h.right.finite, h.up.finite, h.forward.finite⟩

lemma Boxed.transform (hf : f.Boxed k) (hv : v.Boxed l) (hn : k + l + 2 ≤ n) (hn' : n < 128) :
    (f.transform v).Boxed n := by
  have hright : (f.right.scale v.x).Boxed (k + l) := hf.right.scale hv.x le_rfl (by omega)
  have hup : (f.up.scale v.y).Boxed (k + l) := hf.up.scale hv.y le_rfl (by omega)
  have hforward : (f.forward.scale v.z).Boxed (k + l) := hf.forward.scale hv.z le_rfl (by omega)
  have hsum : (f.right.scale v.x + f.up.scale v.y).Boxed (k + l + 1) :=
    hright.add hup (by omega) (by omega) (by omega)
  exact hsum.add hforward (by omega) (by omega) hn'

lemma Boxed.mul (hf : f.Boxed k) (hg : g.Boxed l) (hn : k + l + 2 ≤ n) (hn' : n < 128) :
    (f.mul g).Boxed n :=
  ⟨hf.transform hg.right hn hn', hf.transform hg.up hn hn', hf.transform hg.forward hn hn'⟩

lemma boxed_ofAxisAngle (haxis : axis.Finite) (hsine : Below m (sin angle))
    (hcosine : Below m (cos angle)) (hm : m ≤ 120) : (ofAxisAngle axis angle).Boxed (m + 6) := by
  have hunit := Vec3.boxed_normalize haxis
  exact ⟨Vec3.boxed_rotateBy Vec3.boxed_unitX hunit hsine hcosine hm,
    Vec3.boxed_rotateBy Vec3.boxed_unitY hunit hsine hcosine hm,
    Vec3.boxed_rotateBy Vec3.boxed_unitZ hunit hsine hcosine hm⟩

lemma Boxed.orthonormalized (hf : f.Boxed k) (hk : k ≤ 120) : f.orthonormalized.Straight := by
  have hforward := Vec3.boxed_normalize hf.forward.finite
  have hcross : (f.up.cross f.forward.normalize).Boxed (k + 2) :=
    hf.up.cross hforward (by omega) (by omega)
  have hright := Vec3.boxed_normalize hcross.finite
  exact ⟨hright, hforward.cross hright (by norm_num) (by norm_num), hforward⟩

/-- A straight frame is straight after every rotation. -/
theorem straight_rotatedWorld (hf : f.Straight) (haxis : axis.Finite) (hangle : IsFinite angle) :
    (f.rotatedWorld axis angle).Straight := by
  obtain ⟨hsine, hcosine⟩ := below_sin_cos hangle
  have hrotation := boxed_ofAxisAngle haxis hsine hcosine (by norm_num)
  exact (hrotation.mul hf.boxed le_rfl (by norm_num)).orthonormalized (by norm_num)

lemma straight_rotatedLocal (hf : f.Straight) (haxis : axis.Boxed 0) (hangle : IsFinite angle) :
    (f.rotatedLocal axis angle).Straight := by
  have hworld : (f.transform axis).Boxed 5 := hf.boxed.transform haxis le_rfl (by norm_num)
  exact straight_rotatedWorld hf hworld.finite hangle

end Frame

end Arbor
