import Arbor.Proofs.Space.Scaling
import Arbor.Proofs.Turtle.Posture

/-!
# The direction of the tropism

The turtle asks for the direction of the tropism only after it has normalized it.  So two directions
that differ by a power of two lead to the same walk with every source, unless the length of exactly
one of them overflows (`walk_toward_of_scaled`).  Past that limit a direction is normalized to zero,
and a turtle whose frame is straight is not bent at all: the walk is the one without tropism
(`after_of_null`).
-/

namespace Arbor.Turtle

open Number Chance

namespace Settings

/-- The settings with another direction of the tropism. -/
def toward (s : Settings) (d : Vec3) : Settings := { s with tropismDirection := d }

/-- The settings without tropism. -/
def withoutTropism (s : Settings) : Settings := { s with tropismStrength := 0 }

variable {s : Settings}

/-- A direction that passes the check is not too short to be measured. -/
lemma measured_of_check (h : s.check = .ok ()) (hlength : IsFinite s.tropismDirection.length) :
    s.tropismDirection.Measured := by
  have hdirection := Vec3.isFinite_eq_true_iff.mp (admissible_of_check h).tropismDirection
  simp only [check, check_bind_eq_ok_iff, throw_ite_eq_ok_iff] at h
  obtain ⟨-, -, -, -, -, -, -, -, -, -, hshort, -⟩ := h
  have hsmall : IsFinite (1e-6 : Float32) ∧ 2 ^ (-20 : ℤ) < val (1e-6 : Float32) := by
    have hbits : (1e-6 : Float32) = Float32.ofBits 0x358637BD :=
      toBits_injective (by decide +kernel)
    refine ⟨isFinite_iff.mp (by decide +kernel), ?_⟩
    have htoNat : (0x358637BD : UInt32).toNat = 0x358637BD := rfl
    rw [hbits, val_ofBits_of_lt (by decide), htoNat, magnitude_binary32]
    norm_num
  have hle : ¬ s.tropismDirection.length < 1e-6 := fun hlt => hshort (.inr hlt)
  rw [lt_iff_val_lt hlength hsmall.1, not_lt] at hle
  exact ⟨hdirection, hlength, hsmall.2.trans_le hle⟩

lemma check_withoutTropism (h : s.check = .ok ()) : s.withoutTropism.check = .ok () := by
  simp only [check, check_bind_eq_ok_iff, throw_ite_eq_ok_iff] at h ⊢
  obtain ⟨hangle, hlength, hradius, hlengthDecay, hradiusDecay, hrotation, hjitter, hless,
    hspread, -, hdirection, hleaf⟩ := h
  have hstrength : Check.bounded .tropismStrength 0 1 = .ok () := by decide +kernel
  exact ⟨hangle, hlength, hradius, hlengthDecay, hradiusDecay, hrotation, hjitter, hless, hspread,
    hstrength, hdirection, hleaf⟩

end Settings

/-! ## Directions that are normalized alike -/

section Toward

variable {σ : Type} [Source σ] {s : Settings} {d : Vec3}
  (h : s.tropismDirection.normalize = d.normalize)

include h

lemma Pose.bend_toward (p : Pose) : p.bend (s.toward d) = p.bend s := by
  simp only [Pose.bend, Settings.toward, h]
  rfl

namespace Walker

lemma rotate_toward (w : Walker σ) (angle : Float32) (axis : Vec3) :
    rotate (s.toward d) w angle axis = rotate s w angle axis := by
  simp only [rotate, Pose.rotate, Pose.bend_toward h]
  rfl

lemma spread_toward (w : Walker σ) : spread (s.toward d) w = spread s w := rotate_toward h ..

lemma yaw_toward (w : Walker σ) (angle : Float32) :
    yaw (s.toward d) w angle = yaw s w angle := by
  rw [yaw, yaw, spread_toward h, rotate_toward h]

lemma roll_toward (w : Walker σ) : roll (s.toward d) w = roll s w := by
  simp only [roll, rotate_toward h]
  rfl

lemma openBranch_toward (w : Walker σ) : openBranch (s.toward d) w = openBranch s w := by
  simp only [openBranch, spread_toward h, roll_toward h]
  rfl

lemma move_toward (w : Walker σ) (draw : Bool) : move (s.toward d) w draw = move s w draw := by
  simp only [move, Pose.bend_toward h]
  rfl

/-- **Step.** The turtle cannot tell the two directions apart. -/
lemma act_toward (w : Walker σ) (x : Symbol) : act (s.toward d) w x = act s w x := by
  cases x with
  | forward => exact move_toward h w true
  | skip => exact move_toward h w false
  | turnLeft => exact yaw_toward h w _
  | turnRight => exact yaw_toward h w _
  | pitchDown | pitchUp | rollLeft | rollRight | turnAround => exact rotate_toward h w _ _
  | push => exact openBranch_toward h w
  | pop => rfl
  | letter c => rfl

end Walker

/-- **Run.** The two directions lead to the same walk. -/
lemma after_toward (source : σ) (word : Word) :
    after (s.toward d) source word = after s source word := by
  have hstep : Walker.step (s.toward d) = Walker.step (σ := σ) s := by
    funext w x
    rw [Walker.step, Walker.step, Walker.act_toward h]
  have hstart : Walker.start (s.toward d) source = Walker.start s source := rfl
  rw [after, after, Walker.run, Walker.run, hstep, hstart]

end Toward

/-! ## Directions that are normalized to zero -/

section Null

variable {s : Settings} (hs : s.Admissible) (hnull : s.tropismDirection.normalize.Null)

include hnull in
/-- The axis of the turn is zero, so the heading counts as aligned. -/
lemma Pose.bend_of_null {p : Pose} (hp : p.orientation.Straight) : p.bend s = p := by
  have haxis := (Vec3.Null.cross hp.forward.finite hnull).length
  have hfinite : IsFinite aligned := isFinite_iff.mp (by decide)
  have hnonneg : 0 ≤ val aligned := by
    rw [← val_zero, ← le_iff_val_le below_zero.1 hfinite]
    decide
  have haligned : (p.orientation.forward.cross s.tropismDirection.normalize).length ≤ aligned :=
    (le_iff_val_le haxis.1 hfinite).mpr (haxis.2.2.trans hnonneg)
  unfold bend
  split_ifs
  · rfl
  · exact if_pos haligned

lemma Pose.bend_withoutTropism (p : Pose) : p.bend s.withoutTropism = p :=
  if_pos (show (0 : Float32) ≤ 0 by decide)

namespace Walker

/-- The frames of the turtle and of the poses that it keeps are straight. -/
structure Upright (w : Walker Seeded) : Prop where
  pose : w.pose.orientation.Straight
  stack : ∀ p ∈ w.stack, p.orientation.Straight

variable {w : Walker Seeded}

include hs hnull

lemma Upright.rotate (h : w.Upright) {angle : Float32} {axis : Vec3} (hangle : IsFinite angle)
    (haxis : axis.Boxed 0) :
    Walker.rotate s w angle axis = Walker.rotate s.withoutTropism w angle axis ∧
      (Walker.rotate s w angle axis).Upright := by
  have hjitter : Below 0 (Source.rotationJitter w.source s.rotationJitter).1 :=
    w.source.below_uniform hs.rotationJitter (by norm_num)
  have hstraight := Frame.straight_rotatedLocal h.pose haxis
    (isFinite_add hangle hjitter (by norm_num))
  set turned : Pose := { w.pose with
    orientation := w.pose.orientation.rotatedLocal axis
      (angle + (Source.rotationJitter w.source s.rotationJitter).1) } with hturned
  have hpose : Walker.rotate s w angle axis =
      { w with pose := turned, source := (Source.rotationJitter w.source s.rotationJitter).2 } := by
    have hbend : turned.bend s = turned := Pose.bend_of_null hnull hstraight
    rw [hturned] at hbend
    simp only [Walker.rotate, Pose.rotate, hbend]
    rfl
  have hpose' : Walker.rotate s.withoutTropism w angle axis =
      { w with pose := turned, source := (Source.rotationJitter w.source s.rotationJitter).2 } := by
    simp only [Walker.rotate, Pose.rotate, Pose.bend_withoutTropism]
    rfl
  rw [hpose, hpose']
  exact ⟨rfl, hstraight, h.stack⟩

lemma Upright.spread (h : w.Upright) :
    Walker.spread s w = Walker.spread s.withoutTropism w ∧ (Walker.spread s w).Upright := by
  have hyaw : Below 2 (Source.branchSpread w.source s.branchSpread).1 :=
    w.source.below_uniform hs.branchSpread (by norm_num)
  have hdrawn : Upright { w with source := (Source.branchSpread w.source s.branchSpread).2 } :=
    ⟨h.pose, h.stack⟩
  exact hdrawn.rotate hs hnull hyaw.1 Vec3.boxed_unitY

lemma Upright.yaw (h : w.Upright) {angle : Float32} (hangle : IsFinite angle) :
    Walker.yaw s w angle = Walker.yaw s.withoutTropism w angle ∧
      (Walker.yaw s w angle).Upright := by
  obtain ⟨hspread, hupright⟩ := h.spread hs hnull
  rw [Walker.yaw, Walker.yaw, ← hspread]
  exact hupright.rotate hs hnull hangle Vec3.boxed_unitY

lemma Upright.roll (h : w.Upright) :
    Walker.roll s w = Walker.roll s.withoutTropism w ∧ (Walker.roll s w).Upright := by
  have hangle : Below 3 (Source.branchRoll w.source).1 := w.source.below_uniform_tau
  have hdrawn : Upright { w with source := (Source.branchRoll w.source).2 } := ⟨h.pose, h.stack⟩
  have hrolled := hdrawn.rotate hs hnull hangle.1 Vec3.boxed_unitZ
  have hflag : s.withoutTropism.branchRoll = s.branchRoll := rfl
  rw [Walker.roll, Walker.roll, hflag]
  split_ifs
  · exact hrolled
  · exact ⟨rfl, h⟩

lemma Upright.openBranch (h : w.Upright) :
    Walker.openBranch s w = Walker.openBranch s.withoutTropism w ∧
      (Walker.openBranch s w).Upright := by
  have hopened : Upright { w with stack := w.stack.push w.pose, pose := w.pose.thin s } :=
    ⟨h.pose, Array.forall_mem_push.mpr ⟨h.pose, h.stack⟩⟩
  obtain ⟨hspread, hupright⟩ := hopened.spread hs hnull
  obtain ⟨hroll, hrolled⟩ := hupright.roll hs hnull
  refine ⟨?_, hrolled⟩
  rw [Walker.openBranch, hroll, hspread]
  rfl

omit hs in
lemma Upright.move (h : w.Upright) (draw : Bool) :
    Walker.move s w draw = Walker.move s.withoutTropism w draw ∧
      (Walker.move s w draw).Upright := by
  have hbend : w.pose.bend s = w.pose := Pose.bend_of_null hnull h.pose
  simp only [Walker.move, hbend, Pose.bend_withoutTropism]
  cases draw <;> exact ⟨rfl, h.pose, h.stack⟩

omit hs hnull in
lemma Upright.closeBranch (h : w.Upright) : (Walker.closeBranch s w).Upright :=
  have hclosed := forall_pose_closeBranch (P := fun p => p.orientation.Straight) s w h.pose h.stack
  ⟨hclosed.1, hclosed.2⟩

/-- **Step.** An upright turtle is not bent, and stays upright. -/
lemma Upright.act (h : w.Upright) (x : Symbol) :
    Walker.act s w x = Walker.act s.withoutTropism w x ∧ (Walker.act s w x).Upright := by
  have hangle := hs.angle
  have hangle' : IsFinite (-s.angle) := (finite_neg hangle).1
  cases x with
  | forward => exact h.move hnull true
  | skip => exact h.move hnull false
  | turnLeft => exact h.yaw hs hnull hangle
  | turnRight => exact h.yaw hs hnull hangle'
  | pitchDown => exact h.rotate hs hnull hangle Vec3.boxed_unitX
  | pitchUp => exact h.rotate hs hnull hangle' Vec3.boxed_unitX
  | rollLeft => exact h.rotate hs hnull hangle Vec3.boxed_unitZ
  | rollRight => exact h.rotate hs hnull hangle' Vec3.boxed_unitZ
  | turnAround => exact h.rotate hs hnull (isFinite_iff.mp (by decide)) Vec3.boxed_unitY
  | push => exact h.openBranch hs hnull
  | pop => exact ⟨rfl, h.closeBranch⟩
  | letter c => exact ⟨rfl, h⟩

end Walker

lemma start_withoutTropism (source : Seeded) :
    Walker.start s.withoutTropism source = Walker.start s source := by
  simp only [Walker.start, Pose.initial, Settings.withoutTropism]

include hs hnull in
/-- **Run.** The turtle is upright after every word, as it would be without tropism. -/
lemma after_of_null (source : Seeded) (word : Word) :
    after s source word = after s.withoutTropism source word ∧ (after s source word).Upright := by
  induction word using List.reverseRecOn with
  | nil =>
    rw [after_nil, after_nil, start_withoutTropism]
    exact ⟨rfl, Frame.straight_identity, fun p hp => by simp [Walker.start] at hp⟩
  | append_singleton word x ih =>
    obtain ⟨hafter, hupright⟩ := ih
    obtain ⟨hact, hacted⟩ := hupright.act hs hnull x
    rw [after_concat, after_concat, ← hafter, Walker.step, Walker.step, ← hact]
    exact ⟨rfl, hacted.pose, hacted.stack⟩

end Null

/-- **The direction of the tropism.** Let a direction and its exact multiple by a power of two both
pass the check.  If the lengths of both or of neither overflow, every walk is the same for the two,
whatever its word and its source.  A direction whose length overflows is no direction: every walk of
a seed is the one without tropism. -/
theorem walk_toward_of_scaled {s : Settings} {d : Vec3} {k : ℤ} (hs : s.check = .ok ())
    (hd : (s.toward d).check = .ok ()) (hscaled : Vec3.Scaled k s.tropismDirection d) :
    (s.tropismDirection.length.isFinite = d.length.isFinite →
      ∀ {σ : Type} [Source σ] (word : Word) (source : σ),
        walk (s.toward d) word source = walk s word source) ∧
    (d.length.isFinite = false → ∀ (word : Word) (source : Seeded),
      walk (s.toward d) word source = walk (s.toward d).withoutTropism word source) := by
  constructor
  · intro hlength σ _ word source
    have hiff : IsFinite s.tropismDirection.length ↔ IsFinite d.length :=
      isFinite_iff.symm.trans ((Bool.eq_iff_iff.mp hlength).trans isFinite_iff)
    have hmeasured := Settings.measured_of_check hd
    have hnormalize :=
      Vec3.normalize_eq_of_scaled hscaled (Settings.measured_of_check hs) hmeasured hiff
    rw [walk_eq _ _ hd, walk_eq _ _ hs, after_toward hnormalize]
  · intro hlength word source
    have hnot : ¬ IsFinite d.length := fun hfinite =>
      Bool.false_ne_true (hlength.symm.trans (isFinite_iff.mpr hfinite))
    have hnull : (s.toward d).tropismDirection.normalize.Null :=
      Vec3.null_normalize hscaled.finite' hnot
    obtain ⟨hafter, -⟩ := after_of_null (Settings.admissible_of_check hd) hnull source word
    rw [walk_eq _ _ hd, walk_eq _ _ (Settings.check_withoutTropism hd), hafter]

/-- A turtle that bends toward `x` as hard as it may, and does nothing else by itself. -/
def leaning : Settings := { Settings.rigid 0 with tropismStrength := 1, tropismDirection := .unitX }

/-- The direction of `x`, with the length of a given pattern. -/
def along (n : UInt32) : Vec3 := ⟨Float32.ofBits n, 0, 0⟩

lemma scaled_along {n : UInt32} {k : ℤ} (hn : n.toNat < 0x7F800000)
    (hval : magnitude .binary32 n.toNat = 2 ^ k) : Vec3.Scaled k .unitX (along n) := by
  have hfinite : IsFinite (Float32.ofBits n) :=
    isFinite_ofPattern (α := Float32) (b := n.toBitVec) ((Nat.mod_le _ _).trans_lt hn)
  have hzero : Scaled k 0 0 := ⟨below_zero.1, below_zero.1, by rw [val_zero, mul_zero], rfl⟩
  have hone : val (Float32.ofBits n) = 2 ^ k * val (1 : Float32) := by
    rw [val_ofBits_of_lt hn, hval, val_one, mul_one]
  have hsign : SameSign 1 (Float32.ofBits n) := by
    apply sameSign_of_pos
    · rw [val_one]
      exact one_pos
    · rw [hone, val_one, mul_one]
      positivity
  exact ⟨⟨below_one.1, hfinite, hone, hsign⟩, hzero, hzero⟩

lemma scaled_near : Vec3.Scaled 2 leaning.tropismDirection (along 0x40800000) := by
  have htoNat : (0x40800000 : UInt32).toNat = 0x40800000 := rfl
  refine scaled_along (by decide) ?_
  rw [htoNat, magnitude_binary32]
  norm_num

lemma scaled_far : Vec3.Scaled 70 leaning.tropismDirection (along 0x62800000) := by
  have htoNat : (0x62800000 : UInt32).toNat = 0x62800000 := rfl
  refine scaled_along (by decide) ?_
  rw [htoNat, magnitude_binary32]
  norm_num

theorem walk_toward_of_scaled_along : leaning.check = .ok () ∧
    (leaning.toward (along 0x40800000)).check = .ok () ∧
    (leaning.toward (along 0x62800000)).check = .ok () ∧
    (∀ (word : Word) (source : Seeded),
      walk (leaning.toward (along 0x40800000)) word source = walk leaning word source) ∧
    ∀ (word : Word) (source : Seeded), walk (leaning.toward (along 0x62800000)) word source =
      walk (leaning.toward (along 0x62800000)).withoutTropism word source := by
  have hcheck : leaning.check = .ok () := by decide +kernel
  have hnear : (leaning.toward (along 0x40800000)).check = .ok () := by decide +kernel
  have hfar : (leaning.toward (along 0x62800000)).check = .ok () := by decide +kernel
  obtain ⟨hscaled, -⟩ := walk_toward_of_scaled hcheck hnear scaled_near
  obtain ⟨-, hover⟩ := walk_toward_of_scaled hcheck hfar scaled_far
  exact ⟨hcheck, hnear, hfar, hscaled (by decide +kernel), hover (by decide +kernel)⟩

/-- A direction of the length `2 ^ 70` passes the check, and the turtle does not bend toward it. -/
theorem exists_walk_not_scaled : ∃ (s : Settings) (d : Vec3) (k : ℤ) (word : Word) (seed : UInt64),
    s.check = .ok () ∧ (s.toward d).check = .ok () ∧ Vec3.Scaled k s.tropismDirection d ∧
      (walk (s.toward d) word (Seeded.ofSeed seed)).map Prod.fst ≠
        (walk s word (Seeded.ofSeed seed)).map Prod.fst :=
  ⟨leaning, along 0x62800000, 70, [.forward], 0, by decide +kernel, by decide +kernel, scaled_far,
    by decide +kernel⟩

end Arbor.Turtle
