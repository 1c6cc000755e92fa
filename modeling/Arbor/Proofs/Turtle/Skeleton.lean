import Arbor.Proofs.Lindenmayer.LivePath
import Arbor.Proofs.Turtle.Record

/-!
# The skeleton is connected

Wherever the turtle stands, it has come there along the live path: its position is the one that the
last move of the live path reached (`position_after`), whatever branches were opened and closed in
between and whatever was drawn in them.  The invariant behind it is about the kept poses: the pose
kept for an open branch is the pose before the bracket that opened it (`kept_pose`), and the branch
at level `d` is kept at index `d`.

So a segment begins where an earlier one ended, and in a word without undrawn moves every segment
hangs on the origin (`skeleton_connected`).
-/

namespace Arbor.Turtle

open Word

variable {σ : Type} [Source σ] (s : Settings) (source : σ)

/-! ## Kept poses -/

/-- While a branch is open, the pose before its bracket is kept at the index of its level. -/
lemma kept_pose (w : Word) (n : Nat) : ∀ a < n, n ≤ w.length → w[a]? = some .push →
    (∀ k, a < k → k ≤ n → depthAt w a < depthAt w k) →
      (after s source (w.take n)).stack[depthAt w a]? = some (after s source (w.take a)).pose := by
  induction n with
  | zero => intro a ha; omega
  | succ n ih =>
    intro a ha hn hpush hopen
    have hx : w[n]? = some w[n] := List.getElem?_eq_getElem hn
    have hsize : (after s source (w.take n)).stack.size = depthAt w n := after_stack_size ..
    rw [after_take_succ s source hx, Walker.step]
    simp only [Walker.act_stack]
    rcases Nat.lt_or_ge a n with han | hna
    · have hkept := ih a han (by omega) hpush fun k hak hkn => hopen k hak (by omega)
      have hlevel := hopen n han (by omega)
      split_ifs with ho hc
      · rw [Array.getElem?_push_lt (by omega), ← Array.getElem?_eq_getElem, hkept]
      · -- The pose on top is taken off, and this one lies below it.
        have hnext := hopen (n + 1) (by omega) le_rfl
        rw [depthAt_succ hx, hc, nest] at hnext
        rw [Array.getElem?_pop, if_pos (by omega), hkept]
      · exact hkept
    · obtain rfl : a = n := by omega
      have ho : w[a] = .push := Option.some.inj (hx.symm.trans hpush)
      rw [if_pos ho, ← hsize, Array.getElem?_push_size]

/-- A bracket that closes a branch brings back the pose before its partner. -/
lemma pose_after_partners {w : Word} {a b : Nat} (h : Partners w a b) :
    (after s source (w.take (b + 1))).pose = (after s source (w.take a)).pose := by
  obtain ⟨hab, ha, hb, hlevel, hopen⟩ := partners_iff.mp h
  have hlen : b < w.length := (List.getElem?_eq_some_iff.mp hb).1
  have hkept := kept_pose s source w b a hab hlen.le ha hopen
  have hsize : (after s source (w.take b)).stack.size = depthAt w b := after_stack_size ..
  have hback : (after s source (w.take b)).stack.back? =
      some (after s source (w.take a)).pose := by
    rw [Array.back?, hsize, hlevel, Nat.add_sub_cancel, hkept]
  rw [after_take_succ s source hb, Walker.step, Walker.act, Walker.closeBranch_of_back? s _ hback]

/-! ## The position -/

/-- A symbol that neither moves nor closes a branch leaves the turtle where it is. -/
lemma position_after_succ_of_ne {w : Word} {i : Nat} {x : Symbol} (hx : w[i]? = some x)
    (hf : x ≠ .forward) (hs : x ≠ .skip) (hc : x ≠ .pop ∨ depthAt w i = 0) :
    (after s source (w.take (i + 1))).pose.position =
      (after s source (w.take i)).pose.position := by
  rw [after_take_succ s source hx, Walker.step]
  obtain rfl | rfl | rfl | rfl | ⟨-, h⟩ := (after s source (w.take i)).act_cases s x
  · exact absurd rfl hf
  · exact absurd rfl hs
  · exact ((after s source (w.take i)).openBranch_turned s).position
  · have hsize : (after s source (w.take i)).stack.size = 0 := by
      rw [after_stack_size]
      exact hc.resolve_left (by simp)
    rw [Walker.act, Walker.closeBranch_of_empty s _ hsize]
  · exact h.position

/-- The turtle is where the last move of its live path has led. -/
lemma position_after (w : Word) (i : Nat) : i ≤ w.length →
    (after s source (w.take i)).pose.position =
      (lastMove w i).elim .zero fun j => (after s source (w.take (j + 1))).pose.position := by
  induction i using Nat.strong_induction_on with
  | _ i ih =>
    intro hi
    cases i with
    | zero => rfl
    | succ i =>
      have hx : w[i]? = some w[i] := List.getElem?_eq_getElem hi
      by_cases hmove : w[i]? = some .forward ∨ w[i]? = some .skip
      · rw [lastMove_succ_of_move hmove, Option.elim_some]
      have hf : w[i] ≠ .forward := fun h => hmove (.inl (h ▸ hx))
      have hs : w[i] ≠ .skip := fun h => hmove (.inr (h ▸ hx))
      by_cases hclose : w[i]? = some .pop ∧ 0 < depthAt w i
      · -- The live path goes back to the partner, and so does the turtle.
        obtain ⟨a, ha⟩ := exists_partners hclose.1 hclose.2
        have hai := ha.1
        rw [lastMove_succ_of_partners ha, pose_after_partners s source ha]
        exact ih a (by omega) (by omega)
      · have hkeep : w[i] ≠ .pop ∨ depthAt w i = 0 := by
          by_cases hc : w[i] = .pop
          · exact .inr (by_contra fun hd => hclose ⟨hc ▸ hx, Nat.pos_of_ne_zero hd⟩)
          · exact .inl hc
        have hlast : lastMove w (i + 1) = lastMove w i := by
          refine lastMove_succ_of_ne (by simpa [hx] using hf) (by simpa [hx] using hs) ?_
          rcases hkeep with hc | hd
          · exact .inl (by simpa [hx] using hc)
          · by_cases hc : w[i]? = some .pop
            · exact .inr (unmatched_iff.mpr ⟨hc, hd⟩)
            · exact .inl hc
        rw [hlast, position_after_succ_of_ne s source hx hf hs hkeep]
        exact ih i (by omega) (by omega)

/-! ## Segments and leaves by their place -/

lemma length_draws (w : Word) : (draws w).length = w.count .forward := by
  induction w using List.reverseRecOn with
  | nil => rfl
  | append_singleton w x ih =>
    rw [draws, places_concat, ← draws, List.length_append, List.count_append, ih]
    by_cases hx : x = .forward <;> simp [hx]

lemma mem_draws {w : Word} {i : Nat} : i ∈ draws w ↔ w[i]? = some .forward := by
  rw [draws, mem_places]
  constructor
  · rintro ⟨x, hx, hf⟩
    rw [hx, of_decide_eq_true hf]
  · intro h
    exact ⟨_, h, by simp⟩

/-- The segment of a drawn move, by the number of drawn moves before it. -/
lemma segments_getElem? {w : Word} {i : Nat} (h : w[i]? = some .forward) :
    (after s source w).trace.segments[(w.take i).count .forward]? =
      some (segmentAt s source w i) := by
  have hi := getElem?_places (mem_draws.mpr h)
  rw [after_trace, List.getElem?_map, ← length_draws]
  exact congrArg (Option.map _) hi

/-- The leaf of a bracket with a partner, by the number of such brackets before it. -/
lemma leaves_getElem? {w : Word} {a b : Nat} (h : Partners w a b) :
    (after s source w).trace.leaves[(closings (w.take b)).length]? =
      some (leafAt s source w b) := by
  have hd := h.depthAt_eq
  have hmem : b ∈ closings w := by
    refine mem_places.mpr ⟨.pop, h.2.2.1, ?_⟩
    rw [← depthAt]
    simp [hd]
  have hi := getElem?_places hmem
  rw [after_trace, List.getElem?_map]
  exact congrArg (Option.map _) hi

/-- Every segment belongs to a drawn move. -/
lemma exists_place_of_segments {w : Word} {k : Nat} {seg : Segment}
    (h : (after s source w).trace.segments[k]? = some seg) :
    ∃ i, w[i]? = some .forward ∧ k = (w.take i).count .forward ∧ seg = segmentAt s source w i := by
  rw [after_trace, List.getElem?_map, Option.map_eq_some_iff] at h
  obtain ⟨i, hi, rfl⟩ := h
  have hmem := List.mem_of_getElem? hi
  refine ⟨i, mem_draws.mp hmem, ?_, rfl⟩
  have hnodup : (draws w).Nodup := List.nodup_range.filter _
  have hlen : k < (draws w).length := (List.getElem?_eq_some_iff.mp hi).1
  rw [← length_draws]
  exact (List.getElem?_inj hlen hnodup).mp (hi.trans (getElem?_places hmem).symm)

/-! ## Connection -/

/-- The point `p` is where the live path at place `i` has led: the origin if it has no move, else
the place that its last move reached, which is the end of a segment if that move is drawn. -/
def LedTo (w : Word) (t : Trace) (i : Nat) (p : Vec3) : Prop :=
  match lastMove w i with
  | none => p = .zero
  | some j => p = (after s source (w.take (j + 1))).pose.position ∧
    (w[j]? = some .forward →
      ∃ prior, t.segments[(w.take j).count .forward]? = some prior ∧ p = prior.stop)

lemma ledTo_position {w : Word} {i : Nat} (hi : i ≤ w.length) :
    LedTo s source w (after s source w).trace i (after s source (w.take i)).pose.position := by
  have hposition := position_after s source w i hi
  unfold LedTo
  cases hlast : lastMove w i with
  | none => rw [hposition, hlast, Option.elim_none]
  | some j =>
    rw [hlast, Option.elim_some] at hposition
    exact ⟨hposition, fun hf => ⟨_, segments_getElem? s source hf, hposition⟩⟩

/-- Each segment begins at the origin or exactly at the end of an earlier one. -/
def Trace.Rooted (t : Trace) : Prop :=
  ∀ (k : Nat) (seg : Segment), t.segments[k]? = some seg → seg.start = .zero ∨
    ∃ j < k, ∃ prior : Segment, t.segments[j]? = some prior ∧ seg.start = prior.stop

lemma trace_rooted {w : Word} (hskip : .skip ∉ w) : (after s source w).trace.Rooted := by
  intro k seg h
  obtain ⟨i, hi, rfl, rfl⟩ := exists_place_of_segments s source h
  have hlen : i < w.length := (List.getElem?_eq_some_iff.mp hi).1
  have hled := ledTo_position s source hlen.le
  unfold LedTo at hled
  cases hlast : lastMove w i with
  | none =>
    rw [hlast] at hled
    exact .inl hled
  | some j =>
    rw [hlast] at hled
    obtain ⟨hji, hmove⟩ := lastMove_eq_some hlast
    have hforward : w[j]? = some .forward :=
      hmove.resolve_right fun hs => hskip (List.mem_of_getElem? hs)
    obtain ⟨prior, hprior, hstart⟩ := hled.2 hforward
    refine .inr ⟨_, ?_, prior, hprior, hstart⟩
    -- The drawn move at `j` is one of those before `i`, and none of those before itself.
    have hsub : (w.take (j + 1)).Sublist (w.take i) := (List.take_prefix_take_left hji).sublist
    have hcount := hsub.count_le .forward
    rw [take_succ_of_getElem? hforward, List.count_append] at hcount
    simp at hcount
    omega

/-- One segment of the record leads from `p` to `q`. -/
def Trace.Joins (t : Trace) (p q : Vec3) : Prop := ∃ seg ∈ t.segments, seg.start = p ∧ seg.stop = q

/-- In a rooted record segments lead from the origin to every segment. -/
lemma Trace.Rooted.reflTransGen_joins {t : Trace} (h : t.Rooted) (k : Nat) :
    ∀ seg, t.segments[k]? = some seg → Relation.ReflTransGen t.Joins .zero seg.start := by
  induction k using Nat.strong_induction_on with
  | _ k ih =>
    intro seg hseg
    rcases h k seg hseg with hzero | ⟨j, hjk, prior, hprior, hstart⟩
    · rw [hzero]
    · rw [hstart]
      exact (ih j hjk prior hprior).tail ⟨prior, List.mem_of_getElem? hprior, rfl, rfl⟩

/-- **The skeleton is connected.**  Every segment begins exactly where the live path at its drawn
move has led, and every leaf hangs exactly where the live path at the opening bracket of its branch
has led, with the orientation that the turtle had just before that bracket.  In a word without
undrawn moves every segment begins at the origin or exactly at the end of an earlier one, so
segments lead from the origin to all of them. -/
theorem skeleton_connected (h : s.check = .ok ()) (w : Word) :
    ∃ t out, walk s w source = .ok (t, out) ∧
      (∀ i, w[i]? = some .forward → ∃ seg,
        t.segments[(w.take i).count .forward]? = some seg ∧ LedTo s source w t i seg.start) ∧
      (∀ a b, Partners w a b → ∃ leaf,
        t.leaves[(closings (w.take b)).length]? = some leaf ∧ LedTo s source w t a leaf.position ∧
          leaf.orientation = (after s source (w.take a)).pose.orientation) ∧
      (.skip ∉ w → t.Rooted ∧
        ∀ seg ∈ t.segments, Relation.ReflTransGen t.Joins .zero seg.start) := by
  refine ⟨_, _, walk_eq s source h w, fun i hi => ?_, fun a b hab => ?_, fun hskip => ?_⟩
  · have hlen : i < w.length := (List.getElem?_eq_some_iff.mp hi).1
    exact ⟨_, segments_getElem? s source hi, ledTo_position s source hlen.le⟩
  · have hlen : a < w.length := (List.getElem?_eq_some_iff.mp hab.2.1).1
    have hpose := pose_after_partners s source hab
    refine ⟨_, leaves_getElem? s source hab, ?_, ?_⟩
    · have hled := ledTo_position s source hlen.le
      rwa [← hpose] at hled
    · rw [← hpose]
      rfl
  · have hrooted := trace_rooted s source hskip
    refine ⟨hrooted, fun seg hseg => ?_⟩
    obtain ⟨k, hk⟩ := List.mem_iff_getElem?.mp hseg
    exact hrooted.reflTransGen_joins k seg hk

/-- Behind two closed branches and a stray bracket the trunk goes on where its first segment ended,
and the leaf of the outer branch hangs there. -/
theorem skeleton_connected_trunk : Settings.usual.check = .ok () ∧
    ∃ t out, walk .usual (ofText "F[+F[-F]]]F") (Chance.Seeded.ofSeed 7) = .ok (t, out) ∧
      (∃ first last, t.segments[0]? = some first ∧ t.segments[3]? = some last ∧
        last.start = first.stop) ∧
      (∃ first leaf, t.segments[0]? = some first ∧ t.leaves[1]? = some leaf ∧
        leaf.position = first.stop) ∧ t.Rooted := by
  obtain ⟨t, out, hwalk, hsegments, hleaves, hrooted⟩ :=
    skeleton_connected .usual (Chance.Seeded.ofSeed 7) Settings.check_usual (ofText "F[+F[-F]]]F")
  refine ⟨Settings.check_usual, t, out, hwalk, ?_, ?_, (hrooted (by decide +kernel)).1⟩
  · obtain ⟨last, hlast, hled⟩ := hsegments 10 (by decide +kernel)
    rw [show ((ofText "F[+F[-F]]]F").take 10).count .forward = 3 by decide +kernel] at hlast
    rw [LedTo, show lastMove (ofText "F[+F[-F]]]F") 10 = some 0 by decide +kernel] at hled
    obtain ⟨first, hfirst, hstart⟩ := hled.2 (by decide +kernel)
    exact ⟨first, last, hfirst, hlast, hstart⟩
  · obtain ⟨leaf, hleaf, hled, -⟩ := hleaves 1 8 (by decide +kernel)
    rw [show (closings ((ofText "F[+F[-F]]]F").take 8)).length = 1 by decide +kernel] at hleaf
    rw [LedTo, show lastMove (ofText "F[+F[-F]]]F") 1 = some 0 by decide +kernel] at hled
    obtain ⟨first, hfirst, hposition⟩ := hled.2 (by decide +kernel)
    exact ⟨first, leaf, hfirst, hleaf, hposition⟩

end Arbor.Turtle
