import Arbor.Proofs.Chance.Draws
import Arbor.Proofs.Space.Rotation
import Arbor.Proofs.Turtle.Admissible
import Arbor.Proofs.Turtle.Record

/-!
# Posture

Wherever the turtle goes by admissible settings, its frame is straight, and its length and radius
are at most those that it starts with (`after_sound`).  Its position is bounded by the number of
symbols and the first length, as long as that length is not close to the limit of the numbers.
-/

namespace Arbor

open Number Chance

/-- Finite coordinates up to a bound. -/
structure Vec3.Inside (b : ℝ) (v : Vec3) : Prop where
  x : Within (-b) b v.x
  y : Within (-b) b v.y
  z : Within (-b) b v.z

namespace Turtle

/-- The bound of a position after `n` moves of the length `2^k`: each of them may be longer by its
variation, and the heading by its rounding. -/
noncomputable def reach (k n : ℕ) : ℝ := n * 2 ^ (k + 2)

/-- The longest first length for which positions are followed. -/
def longestLength : ℕ := 100

lemma held_reach {k n : ℕ} (hk : k ≤ longestLength) (hn : n ≤ 2 ^ 24) :
    Held Float32 (reach k n) := by
  have hn' : (n : ℝ) ≤ 2 ^ 24 := by exact_mod_cast hn
  rw [longestLength] at hk
  constructor
  · refine ⟨n, (k + 2 : ℕ), ?_, ?_, ?_⟩
    · rw [abs_of_nonneg (Int.natCast_nonneg n)]
      exact_mod_cast hn
    · exact le_trans (by decide) (Int.natCast_nonneg (k + 2))
    · rw [zpow_natCast, reach, Int.cast_natCast]
  · have hlimit : limit (formatOf Float32) = 2 ^ 128 := rfl
    rw [hlimit, reach, abs_of_nonneg (by positivity)]
    calc (n : ℝ) * 2 ^ (k + 2) ≤ 2 ^ 24 * 2 ^ 102 :=
          mul_le_mul hn' (pow_le_pow_right₀ (by norm_num) (by omega)) (by positivity)
            (by positivity)
      _ < 2 ^ 128 := by norm_num

/-! ## Poses -/

namespace Pose

/-- A pose after `n` symbols at most. -/
structure Sound (s : Settings) (n : ℕ) (p : Pose) : Prop where
  orientation : p.orientation.Straight
  length : Within 0 (val s.initialLength) p.length
  radius : Within 0 (val s.initialRadius) p.radius
  position : ∀ k ≤ longestLength, val s.initialLength ≤ 2 ^ k → p.position.Inside (reach k n)

variable {s : Settings} (hs : s.Admissible) {p : Pose} {n m : ℕ}

lemma Sound.mono (h : p.Sound s n) (hnm : n ≤ m) : p.Sound s m := by
  refine ⟨h.orientation, h.length, h.radius, fun k hk hlength => ?_⟩
  have hle : reach k n ≤ reach k m :=
    mul_le_mul_of_nonneg_right (by exact_mod_cast hnm) (by positivity)
  have hwithin : ∀ {c : Float32}, Within (-reach k n) (reach k n) c →
      Within (-reach k m) (reach k m) c := fun hc =>
    ⟨hc.1, (neg_le_neg hle).trans hc.2.1, hc.2.2.trans hle⟩
  obtain ⟨hx, hy, hz⟩ := h.position k hk hlength
  exact ⟨hwithin hx, hwithin hy, hwithin hz⟩

include hs in
lemma sound_initial : (initial s).Sound s 0 where
  orientation := Frame.straight_identity
  length := ⟨hs.initialLength.1, hs.initialLength.2.le, le_rfl⟩
  radius := ⟨hs.initialRadius.1, hs.initialRadius.2.le, le_rfl⟩
  position k _ _ := by
    have hzero : Within (-reach k 0) (reach k 0) (0 : Float32) := by
      rw [reach, Nat.cast_zero, zero_mul, neg_zero, Within, val_zero]
      exact ⟨below_zero.1, le_rfl, le_rfl⟩
    exact ⟨hzero, hzero, hzero⟩

include hs in
/-- The turn is finite even if the strength by the length is not: it stops at the direction. -/
lemma Sound.bend (h : p.Sound s n) : (p.bend s).Sound s n := by
  refine ⟨?_, by rw [bend_length]; exact h.length, by rw [bend_radius]; exact h.radius,
    by rw [bend_position]; exact h.position⟩
  have hdirection := Vec3.boxed_normalize (Vec3.isFinite_eq_true_iff.mp hs.tropismDirection)
  have hforward := h.orientation.forward
  have haxis := hforward.cross (n := 3) hdirection (by norm_num) (by norm_num)
  have hbend : IsFinite bendPerLength ∧ 0 < val bendPerLength := by
    have hfinite : IsFinite bendPerLength := isFinite_iff.mp (by decide)
    refine ⟨hfinite, ?_⟩
    rw [← val_zero, ← lt_iff_val_lt below_zero.1 hfinite]
    decide
  have hturn : IsFinite (least (s.tropismStrength * p.length * bendPerLength)
      (p.orientation.forward.angleTo s.tropismDirection.normalize)) := by
    have hproduct : AtLeast 0 (s.tropismStrength * p.length) :=
      atLeast_mul hs.tropismStrength.1 h.length.1 held_zero.1 le_rfl
        (mul_nonneg hs.tropismStrength.2.1 h.length.2.1)
    exact isFinite_least (hproduct.mul hbend.1 hbend.2) (Vec3.below_angleTo hforward hdirection).1
  unfold Pose.bend
  split_ifs
  · exact h.orientation
  · dsimp only
    split_ifs
    · exact h.orientation
    · exact Frame.straight_rotatedWorld h.orientation haxis.finite hturn

include hs in
lemma Sound.rotate (h : p.Sound s n) {angle : Float32} {axis : Vec3} (hangle : IsFinite angle)
    (haxis : axis.Boxed 0) : (p.rotate s angle axis).Sound s n := by
  have hrotated : Sound s n { p with orientation := p.orientation.rotatedLocal axis angle } :=
    ⟨Frame.straight_rotatedLocal h.orientation haxis hangle, h.length, h.radius, h.position⟩
  exact hrotated.bend hs

include hs in
lemma Sound.thin (h : p.Sound s n) : (p.thin s).Sound s n := by
  refine ⟨h.orientation, h.length, ?_, h.position⟩
  have hradius := within_shrink h.radius.1 h.radius.2.1 hs.radiusDecay
  exact ⟨hradius.1, hradius.2.1, hradius.2.2.trans h.radius.2.2⟩

/-- The way of a step, coordinate by coordinate. -/
lemma Sound.boxed_way (h : p.Sound s n) {k : ℕ} {step : Float32} (hk : k ≤ longestLength)
    (hstep : Below (k + 1) step) : (p.orientation.forward.scale step).Boxed (k + 2) :=
  h.orientation.forward.scale hstep (by omega) (by rw [longestLength] at hk; omega)

include hs in
lemma Sound.move (h : p.Sound s n) (hn : n + 1 ≤ 2 ^ 24) {step : Float32}
    (hstep : ∀ k ≤ longestLength, val s.initialLength ≤ 2 ^ k → Below (k + 1) step) :
    (p.move s step).Sound s (n + 1) := by
  have hlength := within_shrink h.length.1 h.length.2.1 hs.lengthDecay
  have hradius := within_shrink h.radius.1 h.radius.2.1 hs.radiusDecay
  refine ⟨h.orientation, ⟨hlength.1, hlength.2.1, hlength.2.2.trans h.length.2.2⟩,
    ⟨hradius.1, hradius.2.1, hradius.2.2.trans h.radius.2.2⟩, fun k hk hinitial => ?_⟩
  obtain ⟨hx, hy, hz⟩ := h.position k hk hinitial
  obtain ⟨hx', hy', hz'⟩ := h.boxed_way hk (hstep k hk hinitial)
  have hheld := held_reach hk hn
  have hnext : reach k (n + 1) = reach k n + 2 ^ (k + 2) := by
    rw [reach, reach]
    push_cast
    ring
  have hadd : ∀ {c d : Float32}, Within (-reach k n) (reach k n) c → Below (k + 2) d →
      Within (-reach k (n + 1)) (reach k (n + 1)) (c + d) := by
    intro c d hc hd
    have := abs_le.mp hd.2
    apply within_add hheld.neg hheld hc.1 hd.1 <;> linarith [hc.2.1, hc.2.2]
  exact ⟨hadd hx hx', hadd hy hy', hadd hz hz'⟩

end Pose

/-! ## Walkers -/

namespace Walker

/-- The pose and the kept poses after `n` symbols at most. -/
structure Sound (s : Settings) (n : ℕ) (w : Walker Seeded) : Prop where
  pose : w.pose.Sound s n
  stack : ∀ p ∈ w.stack, p.Sound s n

variable {s : Settings} (hs : s.Admissible) {w : Walker Seeded} {n : ℕ}

lemma Sound.mono {m : ℕ} (h : w.Sound s n) (hnm : n ≤ m) : w.Sound s m :=
  ⟨h.pose.mono hnm, fun p hp => (h.stack p hp).mono hnm⟩

include hs in
lemma sound_start (source : Seeded) : (start s source).Sound s 0 where
  pose := Pose.sound_initial hs
  stack p hp := by simp [start] at hp

include hs in
lemma Sound.rotate (h : w.Sound s n) {angle : Float32} {axis : Vec3} (hangle : IsFinite angle)
    (haxis : axis.Boxed 0) : (rotate s w angle axis).Sound s n := by
  have hjitter : Below 0 (Source.rotationJitter w.source s.rotationJitter).1 :=
    w.source.below_uniform hs.rotationJitter (by norm_num)
  exact ⟨h.pose.rotate hs (isFinite_add hangle hjitter (by norm_num)) haxis, h.stack⟩

include hs in
lemma Sound.spread (h : w.Sound s n) : (spread s w).Sound s n := by
  have hyaw : Below 2 (Source.branchSpread w.source s.branchSpread).1 :=
    w.source.below_uniform hs.branchSpread (by norm_num)
  have hdrawn : Sound s n { w with source := (Source.branchSpread w.source s.branchSpread).2 } :=
    ⟨h.pose, h.stack⟩
  exact hdrawn.rotate hs hyaw.1 Vec3.boxed_unitY

include hs in
lemma Sound.yaw (h : w.Sound s n) {angle : Float32} (hangle : IsFinite angle) :
    (yaw s w angle).Sound s n :=
  (h.spread hs).rotate hs hangle Vec3.boxed_unitY

include hs in
lemma Sound.roll (h : w.Sound s n) : (roll s w).Sound s n := by
  unfold Walker.roll
  split_ifs
  · have hangle : Below 3 (Source.branchRoll w.source).1 := w.source.below_uniform_tau
    have hdrawn : Sound s n { w with source := (Source.branchRoll w.source).2 } :=
      ⟨h.pose, h.stack⟩
    exact hdrawn.rotate hs hangle.1 Vec3.boxed_unitZ
  · exact h

include hs in
lemma Sound.openBranch (h : w.Sound s n) : (openBranch s w).Sound s n := by
  have hopened : Sound s n { w with stack := w.stack.push w.pose, pose := w.pose.thin s } :=
    ⟨h.pose.thin hs, Array.forall_mem_push.mpr ⟨h.pose, h.stack⟩⟩
  exact (hopened.spread hs).roll hs

lemma Sound.closeBranch (h : w.Sound s n) : (closeBranch s w).Sound s n :=
  have hclosed := forall_pose_closeBranch s w h.pose h.stack
  ⟨hclosed.1, hclosed.2⟩

include hs in
/-- The factor of a step is at most two, as its variation is at most one. -/
lemma below_lengthFactor (source : Seeded) :
    Below 1 (Source.lengthFactor source s.lengthJitter).1 := by
  obtain ⟨hfinite, hle⟩ := source.below_uniform hs.lengthJitter (by norm_num)
  show Below 1 (1 + (Source.uniform source (-s.lengthJitter) s.lengthJitter).1)
  apply below_add (by decide) below_one.1 hfinite
  rw [val_one]
  have := abs_le.mp hle
  rw [abs_le]
  constructor <;> linarith

include hs in
lemma Sound.below_step (h : w.Sound s n) (k : ℕ) (hk : k ≤ longestLength)
    (hinitial : val s.initialLength ≤ 2 ^ k) :
    Below (k + 1) (w.pose.length * (Source.lengthFactor w.source s.lengthJitter).1) := by
  rw [longestLength] at hk
  have hlength : Below k w.pose.length :=
    below_of_within ⟨h.pose.length.1, h.pose.length.2.1, h.pose.length.2.2.trans hinitial⟩
  exact hlength.mul_single (below_lengthFactor hs w.source) le_rfl (by omega)

include hs in
lemma Sound.move (h : w.Sound s n) (hn : n + 1 ≤ 2 ^ 24) (draw : Bool) :
    (move s w draw).Sound s (n + 1) := by
  have hpose := (h.pose.bend hs).move hs hn (h.below_step hs)
  have hstack : ∀ p ∈ w.stack, p.Sound s (n + 1) := fun p hp => (h.stack p hp).mono n.le_succ
  cases draw <;> exact ⟨hpose, hstack⟩

include hs in
/-- What one symbol preserves. -/
lemma Sound.act (h : w.Sound s n) (hn : n + 1 ≤ 2 ^ 24) (x : Symbol) :
    (act s w x).Sound s (n + 1) := by
  have hpi : IsFinite pi := isFinite_iff.mp (by decide)
  have hangle := hs.angle
  have hangle' : IsFinite (-s.angle) := (finite_neg hangle).1
  cases x with
  | forward => exact h.move hs hn true
  | skip => exact h.move hs hn false
  | turnLeft => exact (h.yaw hs hangle).mono n.le_succ
  | turnRight => exact (h.yaw hs hangle').mono n.le_succ
  | pitchDown => exact (h.rotate hs hangle Vec3.boxed_unitX).mono n.le_succ
  | pitchUp => exact (h.rotate hs hangle' Vec3.boxed_unitX).mono n.le_succ
  | rollLeft => exact (h.rotate hs hangle Vec3.boxed_unitZ).mono n.le_succ
  | rollRight => exact (h.rotate hs hangle' Vec3.boxed_unitZ).mono n.le_succ
  | turnAround => exact (h.rotate hs hpi Vec3.boxed_unitY).mono n.le_succ
  | push => exact (h.openBranch hs).mono n.le_succ
  | pop => exact h.closeBranch.mono n.le_succ
  | letter c => exact h.mono n.le_succ

end Walker

/-- **The posture of a turtle is sound after every word.** -/
theorem after_sound {s : Settings} (hs : s.Admissible) (source : Seeded) (w : Word)
    (hw : w.length ≤ 2 ^ 24) : (after s source w).Sound s w.length := by
  induction w using List.reverseRecOn with
  | nil => exact Walker.sound_start hs source
  | append_singleton w x ih =>
    rw [List.length_append, List.length_singleton] at hw ⊢
    rw [after_concat]
    have hact := (ih (by omega)).act hs hw x
    exact ⟨hact.pose, hact.stack⟩

end Turtle

end Arbor
