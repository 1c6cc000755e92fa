import Arbor.Proofs.Turtle.Posture

/-!
# Extent of a trace

What the posture of the turtle says about its trace: the radii of segments and the frames and
offsets of leaves are finite whatever the settings are, and so are the places, as long as the first
length is not close to the limit of the numbers.  A segment is not longer than a step with the
rounding of its end (`Segment.Sound.near`).
-/

namespace Arbor

open Number Chance

/-- Coordinates that differ by a bound at most. -/
structure Vec3.Near (b : ℝ) (p q : Vec3) : Prop where
  x : |val q.x - val p.x| ≤ b
  y : |val q.y - val p.y| ≤ b
  z : |val q.z - val p.z| ≤ b

lemma Vec3.Near.symm {b : ℝ} {p q : Vec3} (h : p.Near b q) : q.Near b p := by
  refine ⟨?_, ?_, ?_⟩ <;> rw [abs_sub_comm]
  · exact h.x
  · exact h.y
  · exact h.z

lemma Vec3.Near.mono {b c : ℝ} {p q : Vec3} (h : p.Near b q) (hbc : b ≤ c) : p.Near c q :=
  ⟨h.x.trans hbc, h.y.trans hbc, h.z.trans hbc⟩

lemma Vec3.Near.trans {b c : ℝ} {p q r : Vec3} (hpq : p.Near b q) (hqr : q.Near c r) :
    p.Near (b + c) r := by
  have hadd : ∀ {x y z : ℝ}, |y - x| ≤ b → |z - y| ≤ c → |z - x| ≤ b + c := by
    intro x y z hxy hyz
    rw [← sub_add_sub_cancel' y x z]
    exact (abs_add_le _ _).trans (add_le_add hxy hyz)
  exact ⟨hadd hpq.x hqr.x, hadd hpq.y hqr.y, hadd hpq.z hqr.z⟩

lemma Vec3.Inside.finite {b : ℝ} {v : Vec3} (h : v.Inside b) : v.Finite := ⟨h.x.1, h.y.1, h.z.1⟩

namespace Turtle

/-- A segment of a word of `n` symbols at most. -/
structure Segment.Sound (s : Settings) (n : ℕ) (g : Segment) : Prop where
  startRadius : IsFinite g.startRadius
  stopRadius : IsFinite g.stopRadius
  start : ∀ k ≤ longestLength, val s.initialLength ≤ 2 ^ k → g.start.Inside (reach k n)
  stop : ∀ k ≤ longestLength, val s.initialLength ≤ 2 ^ k → g.stop.Inside (reach k n)
  near : ∀ k ≤ longestLength, val s.initialLength ≤ 2 ^ k →
    Vec3.Near (3 * 2 ^ (k + 1)) g.start g.stop

/-- A leaf of a word of `n` symbols at most. -/
structure Leaf.Sound (s : Settings) (n : ℕ) (l : Leaf) : Prop where
  orientation : l.orientation.Straight
  jitter : l.jitter.Boxed 2
  position : ∀ k ≤ longestLength, val s.initialLength ≤ 2 ^ k → l.position.Inside (reach k n)

variable {s : Settings} (hs : s.Admissible)

/-- The end of a step, seen from its start. -/
lemma Pose.Sound.near_move {p : Pose} {n k : ℕ} (h : p.Sound s n) (hn : n + 1 < 2 ^ 24)
    (hk : k ≤ longestLength) (hinitial : val s.initialLength ≤ 2 ^ k) {step : Float32}
    (hstep : Below (k + 1) step) :
    Vec3.Near (3 * 2 ^ (k + 1)) p.position (p.move s step).position := by
  obtain ⟨hx, hy, hz⟩ := h.position k hk hinitial
  obtain ⟨hx', hy', hz'⟩ := h.boxed_way hk hstep
  have hbound : reach k n + 2 ^ (k + 2) < 2 ^ (k + 2 + 24) := by
    have hn' : (n : ℝ) + 1 < 2 ^ 24 := by exact_mod_cast hn
    have hpos : (0 : ℝ) < 2 ^ (k + 2) := by positivity
    calc reach k n + 2 ^ (k + 2) = (n + 1) * 2 ^ (k + 2) := by
          rw [reach]
          ring
      _ < 2 ^ 24 * 2 ^ (k + 2) := mul_lt_mul_of_pos_right hn' hpos
      _ = 2 ^ (k + 2 + 24) := by rw [← pow_add, Nat.add_comm]
  have hadd : ∀ {c d : Float32}, Within (-reach k n) (reach k n) c → Below (k + 2) d →
      |val (c + d) - val c| ≤ 3 * 2 ^ (k + 1) := by
    intro c d hc hd
    have hc' : |val c| ≤ reach k n := abs_le.mpr hc.2
    have hmoved := abs_val_add_sub_le (m := k + 2) hc.1 hd.1
      (by rw [longestLength] at hk; omega)
      (((abs_add_le _ _).trans (add_le_add hc' hd.2)).trans_lt hbound)
    have hpow : (2 : ℝ) ^ (k + 2) = 2 * 2 ^ (k + 1) := pow_succ' _ _
    have := hd.2
    linarith
  exact ⟨hadd hx hx', hadd hy hy', hadd hz hz'⟩

/-- What the turtle has offered as the offset of a leaf. -/
lemma boxed_leafOffset (hs : s.Admissible) (source : Seeded) :
    (Source.leafOffset source s.leafJitter).1.Boxed 2 where
  x := source.below_uniform hs.leafJitter (by norm_num)
  y := Seeded.below_uniform hs.leafJitter (by norm_num) _
  z := Seeded.below_uniform hs.leafJitter (by norm_num) _

variable (source : Seeded) {w : Word} (hw : w.length < 2 ^ 24)

include hs hw

lemma after_take_sound (i : ℕ) : (after s source (w.take i)).Sound s w.length := by
  have hle : (w.take i).length ≤ w.length := List.length_take_le' i w
  exact (after_sound hs source (w.take i) (by omega)).mono hle

/-- Every segment of a trace is sound. -/
theorem segment_sound {g : Segment} (hg : g ∈ (after s source w).trace.segments) :
    g.Sound s w.length := by
  rw [after_trace, List.mem_map] at hg
  obtain ⟨i, hi, rfl⟩ := hg
  have hstart := after_take_sound hs source hw i
  have hstop := after_take_sound hs source hw (i + 1)
  refine ⟨hstart.pose.radius.1, hstop.pose.radius.1, hstart.pose.position, hstop.pose.position,
    fun k hk hinitial => ?_⟩
  have hmove : w[i]? = some .forward := by
    obtain ⟨x, hx, hforward⟩ := Word.mem_places.mp hi
    rw [hx, of_decide_eq_true hforward]
  have hi' : i < w.length := Word.lt_length_of_mem_places hi
  have hbefore := after_sound hs source (w.take i) (by rw [List.length_take]; omega)
  rw [List.length_take, Nat.min_eq_left hi'.le] at hbefore
  have hnear := (hbefore.pose.bend hs).near_move (by omega) hk hinitial
    (hbefore.below_step hs k hk hinitial)
  rw [Pose.bend_position] at hnear
  show Vec3.Near _ (after s source (w.take i)).pose.position
    (after s source (w.take (i + 1))).pose.position
  rw [after_take_succ s source hmove]
  exact hnear

/-- Every leaf of a trace is sound. -/
theorem leaf_sound {l : Leaf} (hl : l ∈ (after s source w).trace.leaves) :
    l.Sound s w.length := by
  rw [after_trace, List.mem_map] at hl
  obtain ⟨i, -, rfl⟩ := hl
  have hpose := (after_take_sound hs source hw (i + 1)).pose
  exact ⟨hpose.orientation, boxed_leafOffset hs _, hpose.position⟩

end Turtle

end Arbor
