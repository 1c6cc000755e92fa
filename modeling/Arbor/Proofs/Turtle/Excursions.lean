import Arbor.Proofs.Lindenmayer.Balance
import Arbor.Proofs.Turtle.Ranges
import Arbor.Proofs.Turtle.Skeleton

/-!
# Branches as excursions

A closed branch is an excursion: behind it the turtle stands where it stood before it, with the same
poses kept (`Walker.run_bracketed`).  The invariant is that a word without strays never takes off a
pose that was kept before it (`Walker.stack_prefix_run`).

What a branch does leave behind is its draws.  Where nothing varies (`Settings.Unvaried`) there are
none, since all ranges are empty, and the source behind the branch is the one before it.  So the
branch can be cut off, and only its own segments and leaves are gone (`walk_without_branch`).
-/

namespace Arbor

namespace Word

/-! ## Bracketed words -/

/-- A word as a branch. -/
def bracketed (w : Word) : Word := .push :: w ++ [.pop]

lemma IsBalanced.bracketed {w : Word} (h : IsBalanced w) : IsBalanced (bracketed w) := by
  obtain ⟨d, hd⟩ := h
  refine ⟨d.nest, ?_⟩
  rw [Word.bracketed, brackets, List.filterMap_append, List.filterMap_cons, ← brackets, ← hd]
  rfl

/-- Behind a balanced word there are as many branches open as before it, and no stray is new. -/
lemma IsBalanced.closings_append {u v : Word} (h : IsBalanced v) :
    (closings (u ++ v)).length = (closings u).length + (closings v).length := by
  obtain ⟨hstrays, -⟩ := (isBalanced_iff v).mp h
  have hsame := strays_append_of_strays_eq_nil u hstrays
  have hu := length_closings_add_strays u
  have hv := length_closings_add_strays v
  have huv := length_closings_add_strays (u ++ v)
  rw [hsame, List.count_append] at huv
  rw [hstrays, List.length_nil] at hv
  omega

end Word

namespace Turtle

open Chance Number Source Word

/-! ## The kept poses -/

namespace Walker

variable {σ : Type} [Source σ] (s : Settings) (x : Walker σ)

lemma run_concat (word : Word) (symbol : Symbol) :
    run s x (word ++ [symbol]) = step s (run s x word) symbol := by
  rw [run, List.foldl_concat]
  rfl

/-- A word without strays keeps the poses that were kept before it, below those of the branches that
it leaves open. -/
lemma stack_prefix_run {word : Word} (h : strays word = []) :
    x.stack.toList <+: (run s x word).stack.toList ∧
      (run s x word).stack.size = x.stack.size + depth word := by
  induction word using List.reverseRecOn with
  | nil => exact ⟨List.prefix_rfl, rfl⟩
  | append_singleton word symbol ih =>
    rw [strays, places_concat, ← strays, List.append_eq_nil_iff] at h
    obtain ⟨hkept, hsize⟩ := ih h.1
    have hstack : (run s x (word ++ [symbol])).stack = (act s (run s x word) symbol).stack := by
      rw [run_concat, step]
    rw [hstack, depth_concat, act_stack]
    split_ifs with ho hc
    · rw [Array.toList_push, Array.size_push, ho, nest]
      exact ⟨hkept.trans (List.prefix_append ..), by omega⟩
    · -- A branch of the word itself is open, and its pose lies above those from before.
      have hd : depth word ≠ 0 := by simpa [hc] using h.2
      rw [Array.toList_pop, Array.size_pop, hc, nest]
      have hlength : x.stack.toList.length ≤ (run s x word).stack.toList.dropLast.length := by
        rw [List.length_dropLast, Array.length_toList, Array.length_toList]
        omega
      exact ⟨List.prefix_of_prefix_length_le hkept (List.dropLast_prefix _) hlength, by omega⟩
    · rw [nest_of_ne ho hc]
      exact ⟨hkept, hsize⟩

/-- **A closed branch is an excursion**: the turtle is back in its pose, with the same poses
kept. -/
theorem run_bracketed {word : Word} (h : IsBalanced word) :
    (run s x (bracketed word)).pose = x.pose ∧ (run s x (bracketed word)).stack = x.stack := by
  obtain ⟨hstrays, hdepth⟩ := (isBalanced_iff word).mp h
  obtain ⟨hkept, hsize⟩ := stack_prefix_run s (step s x .push) hstrays
  have hopen : (step s x .push).stack = x.stack.push x.pose := act_stack s x .push
  have hrun : run s x (bracketed word) = step s (run s (step s x .push) word) .pop := by
    rw [← run_concat]
    rfl
  have hinside : (run s (step s x .push) word).stack = x.stack.push x.pose := by
    rw [hdepth, Nat.add_zero] at hsize
    rw [← hopen]
    exact (Array.toList_inj.mp (hkept.eq_of_length (by simpa using hsize.symm))).symm
  have hback : (run s (step s x .push) word).stack.back? = some x.pose := by
    rw [hinside, Array.back?_push]
  rw [hrun, step, act, closeBranch_of_back? s _ hback, hinside]
  exact ⟨rfl, Array.pop_push⟩

end Walker

/-! ## Without variation -/

/-- Nothing varies: no deviation is larger than zero, and branches do not roll. -/
structure Settings.Unvaried (s : Settings) : Prop where
  rotationJitter : s.rotationJitter ≤ 0
  lengthJitter : s.lengthJitter ≤ 0
  branchSpread : s.branchSpread ≤ 0
  leafJitter : s.leafJitter ≤ 0
  branchRoll : s.branchRoll = false

/-- A range about zero up to a number that is not positive is empty. -/
lemma isEmpty_about_of_le {v : Float32} {k : ℕ} (h : Within 0 (2 ^ k) v) (hle : v ≤ 0) :
    isEmpty (about v) = true := by
  obtain ⟨hfinite, hval⟩ := finite_neg h.1
  rw [le_iff_val_le h.1 below_zero.1, val_zero] at hle
  rw [isEmpty, about, decide_eq_true_iff, le_iff_val_le h.1 hfinite, hval]
  linarith [h.2.1]

/-- An empty range is answered by its lower end, without a word. -/
lemma uniform_of_isEmpty {v : Float32} (h : isEmpty (about v) = true) (x : Seeded) :
    uniform x (-v) v = (-v, x) :=
  have hle : v ≤ -v := of_decide_eq_true h
  Seeded.uniform_eq_of_draw? (by rw [Seeded.draw?, if_pos hle])

namespace Walker

variable {s : Settings}

/-- Where nothing varies a symbol does the same whatever the source is, and leaves it as it is. -/
lemma act_mapSource_of_unvaried (h : s.Admissible) (hs : s.Unvaried) (w : Walker Seeded)
    (y : Seeded) (x : Symbol) :
    act s (w.mapSource fun _ => y) x = (act s w x).mapSource fun _ => y := by
  have hrotation := uniform_of_isEmpty (isEmpty_about_of_le h.rotationJitter hs.rotationJitter)
  have hlength := uniform_of_isEmpty (isEmpty_about_of_le h.lengthJitter hs.lengthJitter)
  have hspread := uniform_of_isEmpty (isEmpty_about_of_le h.branchSpread hs.branchSpread)
  have hleaf := uniform_of_isEmpty (isEmpty_about_of_le h.leafJitter hs.leafJitter)
  have hrotate : ∀ (w : Walker Seeded) angle axis, rotate s (w.mapSource fun _ => y) angle axis =
      (rotate s w angle axis).mapSource fun _ => y := by
    intro w angle axis
    simp only [rotate, mapSource, drawsRanges_seeded.rotationJitter, hrotation]
  have hspread' : ∀ w : Walker Seeded, spread s (w.mapSource fun _ => y) =
      (spread s w).mapSource fun _ => y := by
    intro w
    simp only [spread, ← hrotate]
    simp only [mapSource, drawsRanges_seeded.branchSpread, hspread]
  have hmove : ∀ draw, move s (w.mapSource fun _ => y) draw =
      (move s w draw).mapSource fun _ => y := by
    intro draw
    cases draw <;>
      simp only [move, mapSource, drawsRanges_seeded.lengthFactor, hlength, Prod.map] <;> rfl
  cases x with
  | forward => exact hmove true
  | skip => exact hmove false
  | turnLeft | turnRight => simp only [act, yaw, hspread', hrotate]
  | push =>
    simp only [act, openBranch, roll, hs.branchRoll, Bool.false_eq_true, if_false, ← hspread']
    rfl
  | pop =>
    have hstack : (w.mapSource fun _ => y).stack = w.stack := rfl
    simp only [act, closeBranch, hstack]
    cases w.stack.back? with
    | none => rfl
    | some pose =>
      simp only [mapSource, drawsRanges_seeded.leafOffset, skip, about, hleaf]
  | letter c => rfl
  | _ => exact hrotate w _ _

lemma run_mapSource_of_unvaried (h : s.Admissible) (hs : s.Unvaried) (w : Walker Seeded)
    (y : Seeded) (word : Word) :
    run s (w.mapSource fun _ => y) word = (run s w word).mapSource fun _ => y := by
  induction word generalizing w with
  | nil => rfl
  | cons x word ih =>
    have hstep : step s (w.mapSource fun _ => y) x = (step s w x).mapSource fun _ => y := by
      rw [step, act_mapSource_of_unvaried h hs]
      rfl
    show run s (step s (w.mapSource fun _ => y) x) word = _
    rw [hstep, ih]
    rfl

/-- Where nothing varies no word of the keystream is taken. -/
lemma run_source_of_unvaried (h : s.Admissible) (hs : s.Unvaried) (w : Walker Seeded)
    (word : Word) : (run s w word).source = w.source := by
  have hrun : run s w word = (run s w word).mapSource fun _ => w.source :=
    run_mapSource_of_unvaried h hs w w.source word
  calc (run s w word).source = ((run s w word).mapSource fun _ => w.source).source := by rw [← hrun]
    _ = w.source := rfl

end Walker

section Unvaried

variable {s : Settings}

/-- Where nothing varies a closed branch leaves no trace on what follows. -/
lemma goAlike_after_bracketed (h : s.Admissible) (hs : s.Unvaried) (x : Seeded) (u : Word)
    {w : Word} (hw : IsBalanced w) :
    Walker.GoAlike (after s x u) (after s x (u ++ bracketed w)) := by
  obtain ⟨hpose, hstack⟩ := (after s x u).run_bracketed s hw
  rw [after_append]
  exact ⟨hpose, hstack, (after s x u).run_source_of_unvaried h hs _⟩

end Unvaried

lemma length_segments_after (s : Settings) (x : Seeded) (w : Word) :
    (after s x w).segments.toList.length = w.count .forward := by
  rw [after_segments, List.length_map, length_draws]

lemma length_leaves_after (s : Settings) (x : Seeded) (w : Word) :
    (after s x w).leaves.toList.length = (closings w).length := by
  rw [after_leaves, List.length_map]

/-- **Without variation a closed branch leaves no trace on the rest.**  Where nothing varies a walk
leaves the same record with every seeded source, and the source as it was.  A word with a balanced
branch then leaves the record of the word without the branch, with two insertions: the segments of
the moves in the branch come between those of the moves before it and behind it, and the leaves of
the branch and of the branches in it between those of the brackets before it and behind it. -/
theorem walk_without_branch {s : Settings} (h : s.check = .ok ()) (hs : s.Unvaried) (u v : Word)
    {w : Word} (hw : IsBalanced w) :
    (∀ word, ∃ t, ∀ x : Seeded, walk s word x = .ok (t, x)) ∧
    ∀ seed seed', ∃ t t' out out' before inside behind leavesBefore leavesInside leavesBehind,
      walk s (u ++ bracketed w ++ v) (Seeded.ofSeed seed) = .ok (t, out) ∧
      walk s (u ++ v) (Seeded.ofSeed seed') = .ok (t', out') ∧
      t.segments = before ++ inside ++ behind ∧ t'.segments = before ++ behind ∧
      before.length = u.count .forward ∧ inside.length = w.count .forward ∧
      behind.length = v.count .forward ∧
      t.leaves = leavesBefore ++ leavesInside ++ leavesBehind ∧
      t'.leaves = leavesBefore ++ leavesBehind ∧
      leavesBefore.length = (closings u).length ∧ leavesInside.length = w.count .pop + 1 := by
  have hadmissible := Settings.admissible_of_check h
  have hsame : ∀ (x y : Seeded) word, walk s word y = .ok ((after s x word).trace, y) := by
    intro x y word
    have hrun := Walker.run_mapSource_of_unvaried hadmissible hs (Walker.start s x) y word
    have hafter : after s y word = (after s x word).mapSource fun _ => y := hrun
    rw [walk_eq s y h word, hafter]
    rfl
  refine ⟨fun word => ⟨_, fun x => hsame (.ofSeed 0) x word⟩, fun seed seed' => ?_⟩
  -- Both walks may as well begin with the same source.
  generalize Seeded.ofSeed seed = x
  have halike := goAlike_after_bracketed hadmissible hs x u hw
  obtain ⟨-, inside, leavesInside, hbranch, -⟩ :=
    (Walker.GoAlike.refl (after s x u)).run (s := s) (bracketed w)
  obtain ⟨-, behind, leavesBehind, hrest, hrest'⟩ := halike.run (s := s) v
  rw [← after_append] at hbranch hrest hrest'
  have hsegments := length_segments_after s x (u ++ bracketed w)
  have hsegments' := length_segments_after s x (u ++ v)
  have hleaves := length_leaves_after s x (u ++ bracketed w)
  rw [hbranch.segments, List.length_append, length_segments_after, List.count_append] at hsegments
  rw [hrest.segments, List.length_append, length_segments_after, List.count_append] at hsegments'
  rw [hbranch.leaves, List.length_append, length_leaves_after,
    hw.bracketed.closings_append, hw.bracketed.length_closings.2] at hleaves
  refine ⟨_, _, _, _, _, inside, behind, _, leavesInside, leavesBehind, hsame x x _,
    hsame x _ _, ?_, hrest.segments, length_segments_after s x u, ?_, ?_, ?_, hrest.leaves,
    length_leaves_after s x u, ?_⟩
  · exact hrest'.segments.trans (by rw [hbranch.segments])
  · simpa [bracketed] using hsegments
  · omega
  · exact hrest'.leaves.trans (by rw [hbranch.leaves])
  · simpa [bracketed] using hleaves

/-- A branch with a branch in it, cut off between an open branch and a stray bracket; the trunk
bends under a tropism. -/
theorem walk_without_branch_bent :
    { Settings.rigid (radians 20) with tropismStrength := 0.5, lengthDecay := 0.5 }.check = .ok () ∧
    IsBalanced (ofText "+F[F]") ∧
    ∃ t t' out out' before inside behind,
      walk { Settings.rigid (radians 20) with tropismStrength := 0.5, lengthDecay := 0.5 }
        (ofText "[&F" ++ bracketed (ofText "+F[F]") ++ ofText "^F]]F") (Seeded.ofSeed 7) =
          .ok (t, out) ∧
      walk { Settings.rigid (radians 20) with tropismStrength := 0.5, lengthDecay := 0.5 }
        (ofText "[&F" ++ ofText "^F]]F") (Seeded.ofSeed 8) = .ok (t', out') ∧
      t.segments = before ++ inside ++ behind ∧ t'.segments = before ++ behind ∧
      before.length = 1 ∧ inside.length = 2 ∧ behind.length = 2 := by
  have hcheck : { Settings.rigid (radians 20) with
      tropismStrength := 0.5, lengthDecay := 0.5 }.check = .ok () := by decide +kernel
  have hunvaried : { Settings.rigid (radians 20) with
      tropismStrength := 0.5, lengthDecay := 0.5 }.Unvaried :=
    ⟨by decide +kernel, by decide +kernel, by decide +kernel, by decide +kernel, rfl⟩
  have hbalanced : IsBalanced (ofText "+F[F]") := by decide +kernel
  obtain ⟨-, hwalks⟩ :=
    walk_without_branch hcheck hunvaried (ofText "[&F") (ofText "^F]]F") hbalanced
  obtain ⟨t, t', out, out', before, inside, behind, -, -, -, hwalk, hwalk', hsegments, hsegments',
    hbefore, hinside, hbehind, -⟩ := hwalks 7 8
  exact ⟨hcheck, hbalanced, t, t', out, out', before, inside, behind, hwalk, hwalk', hsegments,
    hsegments', hbefore.trans (by decide +kernel), hinside.trans (by decide +kernel),
    hbehind.trans (by decide +kernel)⟩

end Turtle

end Arbor
