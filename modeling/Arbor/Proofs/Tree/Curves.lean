import Arbor.Proofs.Lindenmayer.Nesting
import Arbor.Proofs.Shape.Spans
import Arbor.Proofs.Tree.Extent

/-!
# Curves and the branches of the word

A curve is made of segments that follow each other at one depth with ends that count as one point.
The brackets of the word come in only through the depth and through the pose that `]` brings back:
a drawn move that goes on from the one before it (`Word.GoesOn`) has its depth and begins exactly
where that ended, so their segments are joined as long as the places are finite.

The converse has a gap of the width of a joint.  Siblings have one depth, and an undrawn move leaves
it alone, so moves that do not go on from each other are joined where they happen to end and begin
within that width (`curves_of_growWith`); this is so for short moves, and for those that lead back
(`exists_growWith_not_followed`).
-/

namespace Arbor

open Chance Word

/-- The segments of the drawn moves at `i` and `j` of a word are on one curve. -/
def Tree.Joined (t : Tree) (w : Word) (i j : Nat) : Prop :=
  t.geometry.OnOneBranch ((w.take i).count .forward) ((w.take j).count .forward)

namespace Plan

variable {p : Plan} {seed : UInt64} {w : Word} {i j : Nat}

/-! ## Neighbours -/

/-- The segment of the drawn move at `i`. -/
def segment (p : Plan) (seed : UInt64) (w : Word) (i : Nat) : Turtle.Segment :=
  Turtle.segmentAt p.recipe.turtle (Seeded.ofSeed seed) w i

lemma segments_treeOf_getElem? (p : Plan) (seed : UInt64) (hi : w[i]? = some .forward) :
    (p.treeOf seed w).trace.segments[(w.take i).count .forward]? = some (p.segment seed w i) :=
  Turtle.segments_getElem? p.recipe.turtle (Seeded.ofSeed seed) hi

/-- The segments of consecutive drawn moves are joined exactly if the second continues the first. -/
lemma joined_treeOf_iff (h : w.Consecutive i j) : (p.treeOf seed w).Joined w i j ↔
    depthAt w i = depthAt w j ∧
      (p.segment seed w i).stop.distance (p.segment seed w j).start ≤ Assembly.joint := by
  have hfirst := segments_treeOf_getElem? p seed h.first
  have hsecond := segments_treeOf_getElem? p seed h.second
  rw [h.count_take] at hsecond
  rw [Tree.Joined, h.count_take]
  exact (Assembly.onOneBranch_succ_iff rfl hfirst hsecond).trans Assembly.continues_iff

/-- A move that goes on from the one before it has its depth. -/
lemma depthAt_eq_of_goesOn (h : w.Consecutive i j) (hgoes : w.GoesOn i j) :
    depthAt w i = depthAt w j :=
  depthAt_eq_of_innermost_eq (List.getElem?_eq_some_iff.mp h.first).1.le
    (List.getElem?_eq_some_iff.mp h.second).1.le hgoes.innermost

/-- A move that goes on from the one before it begins where that ended. -/
lemma start_eq_stop_of_goesOn (p : Plan) (seed : UInt64) (h : w.Consecutive i j)
    (hgoes : w.GoesOn i j) :
    (p.segment seed w j).start = (p.segment seed w i).stop := by
  have hposition := Turtle.position_after p.recipe.turtle (Seeded.ofSeed seed) w j
    (List.getElem?_eq_some_iff.mp h.second).1.le
  rwa [h.lastMove_eq hgoes, Option.elim_some] at hposition

/-! ## Whole curves -/

/-- Between two moves on one curve each goes on from the one before it, or two neighbours are joined
that do not. -/
lemma goesOn_of_joined (hi : w[i]? = some .forward) : ∀ j, i ≤ j → w[j]? = some .forward →
    (p.treeOf seed w).Joined w i j → depthAt w i = depthAt w j ∧ (w.GoesOn i j ∨
      ∃ a b, i ≤ a ∧ b ≤ j ∧ w.Consecutive a b ∧ ¬ w.GoesOn a b ∧
        (p.treeOf seed w).Joined w a b) := by
  intro j
  induction j using Nat.strong_induction_on with
  | _ j ih =>
    intro hij hj hjoined
    rcases hij.eq_or_lt with rfl | hlt
    · exact ⟨rfl, .inl (.refl w i)⟩
    -- The curve is split at the move before the last one.
    obtain ⟨k, hik, hk⟩ := exists_consecutive hlt hi hj
    have hnumber : (w.take i).count .forward ≤ (w.take k).count .forward :=
      (List.take_prefix_take_left hik).sublist.count_le _
    obtain ⟨hleft, hright⟩ := hjoined.split hnumber (by rw [hk.count_take]; omega)
    obtain ⟨hdepth, hgoes⟩ := ih k hk.lt hik hk.first hleft
    refine ⟨hdepth.trans ((joined_treeOf_iff hk).mp hright).1, ?_⟩
    rcases hgoes with hgoes | ⟨a, b, ha, hb, hab⟩
    · by_cases hlast : w.GoesOn k j
      · exact .inl (hgoes.trans hlast hk.lt hk.first)
      · exact .inr ⟨k, j, hik, le_rfl, hk, hlast, hright⟩
    · exact .inr ⟨a, b, ha, hb.trans hk.lt.le, hab⟩

/-! ## Grown trees -/

/-- **Curves follow branches, up to the width of a joint.**  The segment of each drawn move of the
word is drawn by the span with its number, on a curve of its depth.  Two consecutive ones are joined
on a curve exactly if their moves have the same depth and the first ends within `1e-5` of where the
second begins.  If the second move goes on from the first, with the same innermost branch and no
undrawn move since, they have the same depth, the second segment begins exactly where the first
ends, and they are joined if this point is finite, as all are if the first length is `1e30` at most.
So a curve stays in one branch and runs across no undrawn move, except where consecutive moves that
do not go on from each other are joined. -/
theorem curves_of_growWith {r : Recipe} {t : Tree} (h : ofRecipe r = .ok p)
    (ht : p.growWith seed = .ok t) : ∃ w, p.word = .ok w ∧
      (∀ i, w[i]? = some .forward → ∃ g,
        t.trace.segments[(w.take i).count .forward]? = some g ∧ g.depth = depthAt w i ∧
          t.geometry.Draws ((w.take i).count .forward) g) ∧
      (∀ i j, w.Consecutive i j → ∃ g g',
        t.trace.segments[(w.take i).count .forward]? = some g ∧
        t.trace.segments[(w.take j).count .forward]? = some g' ∧
        (t.Joined w i j ↔
          depthAt w i = depthAt w j ∧ g.stop.distance g'.start ≤ Assembly.joint) ∧
        (w.GoesOn i j → depthAt w i = depthAt w j ∧ g'.start = g.stop ∧
          (g.stop.isFinite → t.Joined w i j)) ∧
        (r.initialLength ≤ 1e30 → g.stop.isFinite)) ∧
      (∀ i j, w[i]? = some .forward → w[j]? = some .forward → i < j → t.Joined w i j →
        depthAt w i = depthAt w j ∧ (w.GoesOn i j ∨
          ∃ a b, i ≤ a ∧ b ≤ j ∧ w.Consecutive a b ∧ ¬ w.GoesOn a b ∧ t.Joined w a b)) := by
  obtain ⟨w, hword, -, -, htree⟩ := (p.growWith_eq_ok_iff seed t).mp ht
  refine ⟨w, hword, fun i hi => ?_, fun i j hij => ?_, fun i j hi hj hij hjoined => ?_⟩
  · have hsegment := segments_treeOf_getElem? p seed hi
    rw [htree]
    exact ⟨_, hsegment, rfl, Assembly.drawn_branches rfl hsegment⟩
  · have hfirst := segments_treeOf_getElem? p seed hij.first
    refine ⟨p.segment seed w i, p.segment seed w j, htree ▸ hfirst,
      htree ▸ segments_treeOf_getElem? p seed hij.second, ?_, fun hgoes => ?_, fun hle => ?_⟩
    · rw [htree, joined_treeOf_iff hij]
    · have hdepth := depthAt_eq_of_goesOn hij hgoes
      have hstart := start_eq_stop_of_goesOn p seed hij hgoes
      refine ⟨hdepth, hstart, fun hfinite => ?_⟩
      rw [htree, joined_treeOf_iff hij, hstart]
      exact ⟨hdepth, Assembly.distance_self_le_joint (Vec3.isFinite_eq_true_iff.mp hfinite)⟩
    · have hmem := List.mem_of_getElem? (htree ▸ hfirst)
      exact ((finitePlaces_of_growWith h ht hle).segments _ hmem).2
  · rw [htree] at hjoined ⊢
    exact goesOn_of_joined hi j hij.le hj hjoined

/-- A trunk of two moves is one curve, and the branch at its end begins another. -/
theorem curves_of_growWith_forked : ∃ p t w,
    ofRecipe { Recipe.usual with
      axiomText := "FF[+F]F", rulesText := "", iterations := 0 } = .ok p ∧
    p.growWith 7 = .ok t ∧ p.word = .ok w ∧ w.GoesOn 0 1 ∧ t.Joined w 0 1 ∧
      w.Consecutive 1 4 ∧ ¬ t.Joined w 1 4 := by
  let r : Recipe := { Recipe.usual with
    axiomText := "FF[+F]F", rulesText := "", iterations := 0 }
  obtain ⟨p, hp, hw⟩ : ∃ p, ofRecipe r = .ok p ∧ p.word = .ok (ofText "FF[+F]F") :=
    exists_eq_ok_of_any _ (by decide +kernel)
  have hfirst : (ofText "FF[+F]F").Consecutive 0 1 :=
    ⟨by decide, by decide +kernel, by decide +kernel, by decide +kernel⟩
  have hsecond : (ofText "FF[+F]F").Consecutive 1 4 :=
    ⟨by decide, by decide +kernel, by decide +kernel, by decide +kernel⟩
  have hgoes : (ofText "FF[+F]F").GoesOn 0 1 := by decide +kernel
  have hdepth : depthAt (ofText "FF[+F]F") 1 ≠ depthAt (ofText "FF[+F]F") 4 := by decide +kernel
  generalize ofText "FF[+F]F" = w at hw hfirst hsecond hgoes hdepth
  obtain ⟨w', hw', -, hneighbours, -⟩ := curves_of_growWith hp (growWith_eq_ok hp hw 7)
  obtain rfl : w = w' := Except.ok.inj (hw.symm.trans hw')
  obtain ⟨_, _, -, -, -, hjoined, hfinite⟩ := hneighbours 0 1 hfirst
  obtain ⟨_, _, -, -, hiff, -⟩ := hneighbours 1 4 hsecond
  exact ⟨p, _, w, hp, growWith_eq_ok hp hw 7, hw, hgoes,
    (hjoined hgoes).2.2 (hfinite (by decide +kernel)), hsecond, fun h => hdepth (hiff.mp h).1⟩

/-- Two short branches from one point are on one curve, and three moves of a length near the largest
number are not: the second ends at infinity, and so has no distance from the third. -/
theorem exists_growWith_not_followed :
    (¬ ∀ (r : Recipe) (p : Plan) (seed : UInt64) (t : Tree) (w : Word),
      ofRecipe r = .ok p → p.growWith seed = .ok t → p.word = .ok w →
        ∀ i j, w.Consecutive i j → t.Joined w i j → w.GoesOn i j) ∧
    ¬ ∀ (r : Recipe) (p : Plan) (seed : UInt64) (t : Tree) (w : Word),
      ofRecipe r = .ok p → p.growWith seed = .ok t → p.word = .ok w →
        ∀ i j, w.Consecutive i j → w.GoesOn i j → t.Joined w i j := by
  constructor
  · intro h
    let r : Recipe := { Recipe.usual with
      axiomText := "[F][F]", rulesText := "", iterations := 0, initialLength := 1e-6,
      branchRoll := false, tropismStrength := 0 }
    obtain ⟨p, hp, hw⟩ : ∃ p, ofRecipe r = .ok p ∧ p.word = .ok (ofText "[F][F]") :=
      exists_eq_ok_of_any _ (by decide +kernel)
    obtain ⟨p', t, hp', ht, hspan, hspan'⟩ := exists_growWith r 42
      (fun t => t.geometry.HasSpan 0 0 ∧ t.geometry.HasSpan 0 1) (by decide +kernel)
    obtain rfl : p = p' := Except.ok.inj (hp.symm.trans hp')
    have hjoined : t.Joined (ofText "[F][F]") 1 4 := by
      rw [Tree.Joined, show ((ofText "[F][F]").take 1).count .forward = 0 by decide +kernel,
        show ((ofText "[F][F]").take 4).count .forward = 1 by decide +kernel]
      exact ⟨0, hspan, hspan'⟩
    have hgoes := h r p 42 t _ hp ht hw 1 4
      ⟨by decide, by decide +kernel, by decide +kernel, by decide +kernel⟩ hjoined
    exact absurd hgoes (by decide +kernel)
  · intro h
    let r : Recipe := { Recipe.usual with
      axiomText := "FFF", rulesText := "", iterations := 0, initialLength := 3e38 }
    obtain ⟨p, hp, hw⟩ : ∃ p, ofRecipe r = .ok p ∧ p.word = .ok (ofText "FFF") :=
      exists_eq_ok_of_any _ (by decide +kernel)
    obtain ⟨p', t, hp', ht, hspan, hspan'⟩ := exists_growWith r 42
      (fun t => t.geometry.HasSpan 0 1 ∧ t.geometry.HasSpan 1 2) (by decide +kernel)
    obtain rfl : p = p' := Except.ok.inj (hp.symm.trans hp')
    have hjoined := h r p 42 t _ hp ht hw 1 2
      ⟨by decide, by decide +kernel, by decide +kernel, by decide +kernel⟩ (by decide +kernel)
    rw [Tree.Joined, show ((ofText "FFF").take 1).count .forward = 1 by decide +kernel,
      show ((ofText "FFF").take 2).count .forward = 2 by decide +kernel] at hjoined
    exact hspan.not_onOneBranch hspan' (by decide) hjoined

end Plan

end Arbor
