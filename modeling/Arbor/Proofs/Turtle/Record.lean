import Arbor.Chance.Seeded
import Arbor.Proofs.Turtle.Steps

/-!
# The record of a walk

The record of a walk is a function of the places of a word: each drawn move leaves the segment
between the poses before and after it, each bracket that closes a branch leaves a leaf, and each
stray one leaves a warning (`after_trace`).  Neither the number nor the order nor the depth of the
entries depends on the settings or on what is drawn from the source, so the brackets of the word
alone decide the structure (`walk_follows_brackets`).
-/

namespace Arbor.Turtle

open Word

variable {σ : Type} [Source σ] (s : Settings) (source : σ)

/-- What a drawn move at place `i` leaves. -/
def segmentAt (w : Word) (i : Nat) : Segment :=
  ⟨(after s source (w.take i)).pose.position, (after s source (w.take (i + 1))).pose.position,
    (after s source (w.take i)).pose.radius, (after s source (w.take (i + 1))).pose.radius,
    depthAt w i⟩

/-- What a bracket that closes a branch at place `i` leaves. -/
def leafAt (w : Word) (i : Nat) : Leaf :=
  ⟨(after s source (w.take (i + 1))).pose.position,
    (after s source (w.take (i + 1))).pose.orientation,
    (Source.leafOffset (after s source (w.take i)).source s.leafJitter).1, depthAt w (i + 1)⟩

/-! ## The three lists -/

lemma segmentAt_concat (w : Word) (x : Symbol) {i : Nat} (hi : i < w.length) :
    segmentAt s source (w ++ [x]) i = segmentAt s source w i := by
  simp only [segmentAt, List.take_append_of_le_length hi.le,
    List.take_append_of_le_length (show i + 1 ≤ w.length from hi), depthAt_append hi.le]

lemma leafAt_concat (w : Word) (x : Symbol) {i : Nat} (hi : i < w.length) :
    leafAt s source (w ++ [x]) i = leafAt s source w i := by
  simp only [leafAt, List.take_append_of_le_length hi.le,
    List.take_append_of_le_length (show i + 1 ≤ w.length from hi),
    depthAt_append (show i + 1 ≤ w.length from hi)]

lemma after_segments (w : Word) :
    (after s source w).segments.toList = (draws w).map (segmentAt s source w) := by
  induction w using List.reverseRecOn with
  | nil => rfl
  | append_singleton w x ih =>
    have hstep := (after s source w).act_segments s x
    rw [draws, map_places_concat _ (segmentAt s source) w x fun _ => segmentAt_concat s source w x,
      ← draws, ← ih, after_concat]
    simp only [Walker.step, hstep]
    congr 1
    by_cases hx : x = .forward
    · simp [hx, segmentAt, Walker.step, depthAt, List.take_of_length_le]
    · simp [hx]

lemma after_leaves (w : Word) :
    (after s source w).leaves.toList = (closings w).map (leafAt s source w) := by
  induction w using List.reverseRecOn with
  | nil => rfl
  | append_singleton w x ih =>
    have hstep := (after s source w).act_leaves s x
    rw [closings, map_places_concat _ (leafAt s source) w x fun _ => leafAt_concat s source w x,
      ← closings, ← ih, after_concat]
    simp only [Walker.step, hstep]
    congr 1
    by_cases hx : x = .pop ∧ 0 < depth w
    · simp [hx, leafAt, Walker.step, Walker.act_stack_size, depthAt, List.take_of_length_le]
    · simp [hx]

lemma after_warnings (w : Word) :
    (after s source w).warnings.toList = (strays w).map .unmatchedPop := by
  induction w using List.reverseRecOn with
  | nil => rfl
  | append_singleton w x ih =>
    have hstep := (after s source w).act_warnings s x
    rw [strays, places_concat, List.map_append, ← strays, ← ih, after_concat]
    simp only [Walker.step, hstep]
    congr 1
    by_cases hx : x = .pop ∧ depth w = 0
    · simp [hx]
    · simp [hx]

/-- The whole record of a walk over a word. -/
lemma after_trace (w : Word) : (after s source w).trace =
    ⟨(draws w).map (segmentAt s source w), (closings w).map (leafAt s source w),
      (strays w).map .unmatchedPop ++
        if 0 < depth w then [.unclosedBranches (depth w)] else []⟩ := by
  rw [Walker.trace, after_segments, after_leaves, after_warnings, after_stack_size]
  congr 2
  by_cases h : depth w = 0
  · simp [Array.isEmpty, h]
  · simp [Array.isEmpty, h, Nat.pos_of_ne_zero h]

/-! ## Balance and depth of a record -/

namespace Trace

variable {t : Trace} {w : Word}

/-- The warnings that the brackets of `w` call for. -/
def Warns (t : Trace) (w : Word) : Prop :=
  t.warnings = (strays w).map .unmatchedPop ++
    if 0 < depth w then [.unclosedBranches (depth w)] else []

lemma Warns.isBalanced_iff (h : t.Warns w) : t.isBalanced = true ↔ IsBalanced w := by
  rw [isBalanced, h, List.isEmpty_iff, List.append_eq_nil_iff, List.map_eq_nil_iff,
    Word.isBalanced_iff]
  refine and_congr_right fun _ => ?_
  by_cases hd : depth w = 0 <;> simp [hd, Nat.pos_iff_ne_zero]

lemma Warns.unmatchedPops_eq (h : t.Warns w) : t.unmatchedPops = (strays w).length := by
  rw [unmatchedPops, h, List.countP_append, List.countP_map]
  split <;> simp [Function.comp_def]

lemma Warns.unclosedPushes_eq (h : t.Warns w) : t.unclosedPushes = depth w := by
  rw [unclosedPushes, h, List.foldl_append, List.foldl_map, List.foldl_fixed]
  split
  · simp
  · simp
    omega

lemma Warns.ensureBalanced_eq (h : t.Warns w) : t.ensureBalanced =
    if t.isBalanced then .ok () else .error (.unbalanced (strays w).length (depth w)) := by
  have hiff := h.isBalanced_iff.trans (Word.isBalanced_iff w)
  rw [ensureBalanced, h.unmatchedPops_eq, h.unclosedPushes_eq]
  by_cases hb : t.isBalanced = true
  · obtain ⟨hs, hd⟩ := hiff.mp hb
    simp [hb, hs, hd]
  · rw [if_neg hb, if_neg]
    rintro ⟨hs, hd⟩
    exact hb (hiff.mpr ⟨List.length_eq_zero_iff.mp hs, hd⟩)

lemma maxDepth_eq (t : Trace) : t.maxDepth = (t.segments.map Segment.depth).max?.getD 0 := by
  rw [maxDepth, ← List.foldl_map]
  cases t.segments.map Segment.depth with
  | nil => rfl
  | cons d ds => rw [List.max?_cons', Option.getD_some, List.foldl_cons, Nat.zero_max]

end Trace

/-! ## The structure of a walk -/

/-- **The brackets decide the structure of a walk.**  With a counter that goes up at `[` and, if it
is positive, down at `]`, a walk leaves one segment for each drawn move, at the depth of the counter
there; one leaf for each `]` met with a positive counter, at the depth of the counter after it; and
one warning for each `]` met with a zero counter, by its place in the word, before one warning with
the counter at the end if that is positive.  So a record is balanced if the brackets form a Dyck
word, its failure gives the two numbers of brackets without a partner, and its greatest depth is
the greatest counter at a drawn move. -/
theorem walk_follows_brackets (h : s.check = .ok ()) (w : Word) :
    ∃ t out, walk s w source = .ok (t, out) ∧
      t.segments.map Segment.depth = (draws w).map (depthAt w) ∧
      t.leaves.map Leaf.depth = (closings w).map (fun i => depthAt w (i + 1)) ∧
      t.warnings = (strays w).map .unmatchedPop ++
        (if 0 < depth w then [.unclosedBranches (depth w)] else []) ∧
      (t.isBalanced = true ↔ IsBalanced w) ∧
      t.ensureBalanced = (if t.isBalanced then .ok ()
        else .error (.unbalanced (strays w).length (depth w))) ∧
      t.maxDepth = ((draws w).map (depthAt w)).max?.getD 0 := by
  have htrace := after_trace s source w
  have hsegments : (after s source w).trace.segments.map Segment.depth =
      (draws w).map (depthAt w) := by
    rw [htrace, List.map_map]
    rfl
  have hwarns : (after s source w).trace.Warns w := by rw [Trace.Warns, htrace]
  refine ⟨_, _, walk_eq s source h w, hsegments, ?_, hwarns, hwarns.isBalanced_iff,
    hwarns.ensureBalanced_eq, ?_⟩
  · rw [htrace, List.map_map]
    rfl
  · rw [Trace.maxDepth_eq, hsegments]

/-- A word with strays before, between and behind its branches, one of which stays open. -/
theorem walk_follows_brackets_stray : Settings.usual.check = .ok () ∧
    ∃ t out, walk .usual (ofText "]F[F[+F]]]F[-[F") (Chance.Seeded.ofSeed 7) = .ok (t, out) ∧
      t.segments.map Segment.depth = [0, 1, 2, 0, 2] ∧
      t.leaves.map Leaf.depth = [1, 0] ∧
      t.warnings = [.unmatchedPop 0, .unmatchedPop 9, .unclosedBranches 2] ∧
      t.isBalanced = false ∧ t.ensureBalanced = .error (.unbalanced 2 2) ∧ t.maxDepth = 2 := by
  obtain ⟨t, out, hwalk, hsegments, hleaves, hwarnings, hbalanced, hensure, hdepth⟩ :=
    walk_follows_brackets .usual (Chance.Seeded.ofSeed 7) Settings.check_usual
      (ofText "]F[F[+F]]]F[-[F")
  have hf : t.isBalanced = false :=
    Bool.eq_false_iff.mpr fun ht => absurd (hbalanced.mp ht) (by decide +kernel)
  refine ⟨Settings.check_usual, t, out, hwalk, hsegments.trans (by decide +kernel),
    hleaves.trans (by decide +kernel), hwarnings.trans (by decide +kernel), hf, ?_,
    hdepth.trans (by decide +kernel)⟩
  rw [hensure, hf]
  decide +kernel

end Arbor.Turtle
