import Arbor.Proofs.Turtle.Skeleton

/-!
# The form of a walk

Draws bend a tree and stretch it, and that is all: how thick the turtle draws and how far it would
step without variation follow from the live path alone.  A move multiplies both the length and the
radius by their factors, an opening bracket the radius only, and a closing bracket brings both back
together with the rest of the pose (`after_tapered`).

So the radii and the depths of a record, and its warnings, are a function of the word and the
settings, and two walks over one word agree in them, whatever their sources are
(`walks_agree_in_form`).
-/

namespace Arbor.Turtle

open Word

/-- `x` multiplied `n` times in succession by a factor. -/
def decayed (factor : Float32) (n : Nat) (x : Float32) : Float32 := (· * factor)^[n] x

lemma decayed_succ (factor : Float32) (n : Nat) (x : Float32) :
    decayed factor (n + 1) x = decayed factor n x * factor :=
  Function.iterate_succ_apply' ..

/-! ## Length and radius -/

/-- The length is that after `m` moves, and the radius that after `m` moves and `k` brackets. -/
structure Pose.Tapered (s : Settings) (m k : Nat) (p : Pose) : Prop where
  length : p.length = decayed s.lengthDecay m s.initialLength
  radius : p.radius = decayed s.radiusDecay (m + k) s.initialRadius

variable {σ : Type} (s : Settings)

namespace Walker

variable {s} {w : Walker σ} {m k : Nat}

lemma Turned.tapered {w' : Walker σ} (h : Turned w w') (hw : w.pose.Tapered s m k) :
    w'.pose.Tapered s m k :=
  ⟨h.length.trans hw.length, h.radius.trans hw.radius⟩

variable [Source σ]

lemma tapered_move (hw : w.pose.Tapered s m k) (draw : Bool) :
    (move s w draw).pose.Tapered s (m + 1) k := by
  have hpose : (move s w draw).pose.length = w.pose.length * s.lengthDecay ∧
      (move s w draw).pose.radius = w.pose.radius * s.radiusDecay := by
    cases draw <;> simp [move, Pose.move]
  exact ⟨by rw [hpose.1, hw.length, decayed_succ],
    by rw [hpose.2, hw.radius, Nat.add_right_comm, decayed_succ]⟩

lemma tapered_openBranch (hw : w.pose.Tapered s m k) :
    (openBranch s w).pose.Tapered s m (k + 1) := by
  refine (openBranch_turned s w).tapered ⟨hw.length, ?_⟩
  rw [← Nat.add_assoc, decayed_succ, ← hw.radius]
  rfl

/-- What a symbol that closes no branch makes of length and radius. -/
lemma tapered_act {x : Symbol} (hx : x ≠ .pop) (hw : w.pose.Tapered s m k) :
    (act s w x).pose.Tapered s (m + if x = .forward ∨ x = .skip then 1 else 0)
      (k + if x = .push then 1 else 0) := by
  obtain rfl | rfl | rfl | rfl | ⟨⟨hf, hs, ho, -⟩, h⟩ := act_cases s w x
  · exact tapered_move hw true
  · exact tapered_move hw false
  · exact tapered_openBranch hw
  · exact absurd rfl hx
  · rw [if_neg (by simp [hf, hs]), if_neg ho]
    exact h.tapered hw

end Walker

variable [Source σ] (source : σ)

/-- **Length and radius follow the live path.**  At every place the turtle would step the first
length, shortened once for each move on the live path, and its radius is the first one, thinned
once for each move and each opening bracket. -/
theorem after_tapered (w : Word) : ∀ i ≤ w.length,
    (after s source (w.take i)).pose.Tapered s (moves w i) (pushes w i) := by
  refine live_induction ⟨rfl, rfl⟩ (fun i x hx hp ih => ?_) (fun i hu ih => ?_)
    fun a i h ih => ?_
  · rw [after_take_succ s source hx, moves_succ hx hp, pushes_succ hx hp]
    exact Walker.tapered_act hp ih
  · obtain ⟨hpop, hd⟩ := unmatched_iff.mp hu
    have hsize : (after s source (w.take i)).stack.size = 0 := by rwa [after_stack_size]
    rw [after_take_succ s source hpop, moves, pushes, liveCount_succ_of_unmatched _ hu,
      liveCount_succ_of_unmatched _ hu, Walker.step, Walker.act,
      Walker.closeBranch_of_empty s _ hsize]
    exact ih
  · rw [pose_after_partners s source h, moves, pushes, liveCount_succ_of_partners _ h,
      liveCount_succ_of_partners _ h]
    exact ih

/-! ## Segments -/

/-- The heading of a move at place `i`, bent by the tropism. -/
def headingAt (w : Word) (i : Nat) : Vec3 :=
  ((after s source (w.take i)).pose.bend s).orientation.forward

/-- The factor that is drawn for the length of a move at place `i`. -/
def stretchAt (w : Word) (i : Nat) : Float32 :=
  (Source.lengthFactor (after s source (w.take i)).source s.lengthJitter).1

lemma segmentAt_stop {w : Word} {i : Nat} (hi : w[i]? = some .forward) :
    (segmentAt s source w i).stop = (segmentAt s source w i).start +
      (headingAt s source w i).scale
        ((after s source (w.take i)).pose.length * stretchAt s source w i) := by
  simp [segmentAt, headingAt, stretchAt, after_take_succ s source hi, Walker.step, Walker.act,
    Walker.move, Pose.move]

/-- The radii and the depth of the segment that a drawn move at place `i` leaves. -/
def formAt (w : Word) (i : Nat) : Float32 × Float32 × Nat :=
  (decayed s.radiusDecay (moves w i + pushes w i) s.initialRadius,
    decayed s.radiusDecay (moves w i + pushes w i + 1) s.initialRadius, pushes w i)

lemma segmentAt_form {w : Word} {i : Nat} (hi : w[i]? = some .forward) :
    ((segmentAt s source w i).startRadius, (segmentAt s source w i).stopRadius,
      (segmentAt s source w i).depth) = formAt s w i := by
  have hlen : i < w.length := (List.getElem?_eq_some_iff.mp hi).1
  have hbefore := (after_tapered s source w i hlen.le).radius
  have hafter := (after_tapered s source w (i + 1) hlen).radius
  rw [moves_succ hi (by simp), pushes_succ hi (by simp)] at hafter
  simp only [segmentAt, formAt, hbefore, hafter, depthAt_eq_pushes w i hlen.le]
  simp [Nat.add_right_comm]

/-! ## Two walks -/

/-- What of a record no draw changes: the radii and the depth of each segment, the depth of each
leaf, and the warnings. -/
structure Trace.Form where
  segments : List (Float32 × Float32 × Nat)
  leaves : List Nat
  warnings : List Warning
  deriving DecidableEq

/-- The form of a record. -/
def Trace.form (t : Trace) : Trace.Form where
  segments := t.segments.map fun seg => (seg.startRadius, seg.stopRadius, seg.depth)
  leaves := t.leaves.map Leaf.depth
  warnings := t.warnings

/-- The form of a record is a function of the word and the settings. -/
lemma after_trace_form (w : Word) : (after s source w).trace.form =
    ⟨(draws w).map (formAt s w), (closings w).map fun i => depthAt w (i + 1),
      (strays w).map .unmatchedPop ++ if 0 < depth w then [.unclosedBranches (depth w)] else []⟩ := by
  rw [after_trace, Trace.form]
  congr 1
  · rw [List.map_map]
    exact List.map_congr_left fun i hi => segmentAt_form s source (mem_draws.mp hi)
  · rw [List.map_map]
    rfl

/-- **No draw changes the form of a tree.**  Two walks over one word by the same settings leave
records that agree in the numbers of segments and leaves, in their radii and depths and in the
warnings, whatever their sources are.  The segment of a drawn move with `m` moves and `k` opening
brackets on its live path has depth `k`; its radius is the first one, multiplied `m + k` times by
the radius factor, at its start, and once more at its end; and it is as long as a step of the first
length, multiplied `m` times by the length factor and then by the factor that is drawn for it. -/
theorem walks_agree_in_form {τ : Type} [Source τ] (other : τ) (h : s.check = .ok ()) (w : Word) :
    ∃ t out t' out', walk s w source = .ok (t, out) ∧ walk s w other = .ok (t', out') ∧
      t.segments.length = t'.segments.length ∧ t.leaves.length = t'.leaves.length ∧
      t.form = t'.form ∧
      ∀ i, w[i]? = some .forward → ∃ seg,
        t.segments[(w.take i).count .forward]? = some seg ∧
        seg.startRadius = decayed s.radiusDecay (moves w i + pushes w i) s.initialRadius ∧
        seg.stopRadius = seg.startRadius * s.radiusDecay ∧ seg.depth = pushes w i ∧
        seg.stop = seg.start + (headingAt s source w i).scale
          (decayed s.lengthDecay (moves w i) s.initialLength * stretchAt s source w i) := by
  have hform : (after s source w).trace.form = (after s other w).trace.form := by
    rw [after_trace_form, after_trace_form]
  have hsegments := congrArg (fun f => f.segments.length) hform
  have hleaves := congrArg (fun f => f.leaves.length) hform
  simp only [Trace.form, List.length_map] at hsegments hleaves
  refine ⟨_, _, _, _, walk_eq s source h w, walk_eq s other h w, hsegments, hleaves, hform,
    fun i hi => ?_⟩
  have hlen : i < w.length := (List.getElem?_eq_some_iff.mp hi).1
  have hseg := segmentAt_form s source hi
  simp only [formAt, decayed_succ, Prod.mk.injEq] at hseg
  obtain ⟨hstart, hstop, hdepth⟩ := hseg
  refine ⟨_, segments_getElem? s source hi, hstart, by rw [hstop, hstart], hdepth, ?_⟩
  rw [segmentAt_stop s source hi, (after_tapered s source w i hlen.le).length]

/-- Two sources of different kinds and seeds: the draws inside of two closed branches, one in the
other, do not thin the trunk behind them. -/
theorem walks_agree_in_form_nested : Settings.usual.check = .ok () ∧
    ∃ t out t' out',
      walk .usual (ofText "F[+Ff[-F]]]F") (Chance.Seeded.ofSeed 7) = .ok (t, out) ∧
      walk .usual (ofText "F[+Ff[-F]]]F") (Recorded.start (Chance.Seeded.ofSeed 8)) =
        .ok (t', out') ∧
      t.form = t'.form ∧
      (∃ twig : Segment, t.segments[2]? = some twig ∧
        twig.startRadius = 1 * 0.9 * 0.9 * 0.9 * 0.9 * 0.9 ∧ twig.depth = 2) ∧
      ∃ trunk : Segment, t.segments[3]? = some trunk ∧ trunk.startRadius = 1 * 0.9 ∧
        trunk.stopRadius = trunk.startRadius * 0.9 ∧ trunk.depth = 0 := by
  obtain ⟨t, out, t', out', hwalk, hwalk', -, -, hform, hsegments⟩ :=
    walks_agree_in_form .usual (Chance.Seeded.ofSeed 7) (Recorded.start (Chance.Seeded.ofSeed 8))
      Settings.check_usual (ofText "F[+Ff[-F]]]F")
  refine ⟨Settings.check_usual, t, out, t', out', hwalk, hwalk', hform, ?_, ?_⟩
  · obtain ⟨twig, htwig, hstart, -, hdepth, -⟩ := hsegments 7 (by decide +kernel)
    rw [show ((ofText "F[+Ff[-F]]]F").take 7).count .forward = 2 by decide +kernel] at htwig
    exact ⟨twig, htwig, hstart.trans (by decide +kernel), hdepth.trans (by decide +kernel)⟩
  · obtain ⟨trunk, htrunk, hstart, hstop, hdepth, -⟩ := hsegments 11 (by decide +kernel)
    rw [show ((ofText "F[+Ff[-F]]]F").take 11).count .forward = 3 by decide +kernel] at htrunk
    exact ⟨trunk, htrunk, hstart.trans (by decide +kernel), hstop, hdepth.trans (by decide +kernel)⟩

end Arbor.Turtle
