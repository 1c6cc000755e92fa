import Arbor.Proofs.Shape.Extent
import Arbor.Proofs.Tree.Safety

/-!
# Extent of a tree

The numbers of a grown tree are finite as far as the settings keep them so.  Radii, frames and
offsets are finite in every tree.  The first length is checked to be positive and finite but has no
upper bound, and it multiplies every place: places are finite for first lengths up to `1e30`, and
handles, whose reach is the root of a sum of squares, for first lengths up to `1e18`
(`finite_of_growWith`).  Beyond that a single move can be enough for handles that are no numbers,
and two moves for a place that is infinite (`exists_growWith_not_finite`).
-/

namespace Arbor

open Number Chance

namespace Tree

/-- Finite radii, frames and offsets. -/
structure FiniteForms (t : Tree) : Prop where
  segments : ∀ g ∈ t.trace.segments, g.startRadius.isFinite ∧ g.stopRadius.isFinite
  leaves : ∀ l ∈ t.trace.leaves, l.orientation.isFinite ∧ l.jitter.isFinite
  knots : ∀ b ∈ t.geometry.branches, ∀ k ∈ b.knots, k.radius.isFinite
  blades : ∀ l ∈ t.geometry.leaves, l.rotation.isFinite

/-- Finite places. -/
structure FinitePlaces (t : Tree) : Prop where
  segments : ∀ g ∈ t.trace.segments, g.start.isFinite ∧ g.stop.isFinite
  leaves : ∀ l ∈ t.trace.leaves, l.position.isFinite
  knots : ∀ b ∈ t.geometry.branches, ∀ k ∈ b.knots, k.position.isFinite
  blades : ∀ l ∈ t.geometry.leaves, l.position.isFinite

/-- Finite handles. -/
def FiniteHandles (t : Tree) : Prop :=
  ∀ b ∈ t.geometry.branches, ∀ k ∈ b.knots, k.left.isFinite ∧ k.right.isFinite

instance : DecidablePred FiniteHandles := fun t =>
  inferInstanceAs (Decidable (∀ b ∈ t.geometry.branches, ∀ k ∈ b.knots, _))

lemma isFinite_least_greatest {x y : Float32} (hx : IsFinite x) (hy : IsFinite y) :
    IsFinite (least x y) ∧ IsFinite (greatest x y) := by
  unfold least greatest
  split_ifs <;> exact ⟨‹_›, ‹_›⟩

lemma finite_include {b : Box} {p : Vec3} (hlow : b.low.Finite) (hhigh : b.high.Finite)
    (hp : p.Finite) : (b.include p).low.Finite ∧ (b.include p).high.Finite :=
  ⟨⟨(isFinite_least_greatest hlow.x hp.x).1, (isFinite_least_greatest hlow.y hp.y).1,
    (isFinite_least_greatest hlow.z hp.z).1⟩,
    (isFinite_least_greatest hhigh.x hp.x).2, (isFinite_least_greatest hhigh.y hp.y).2,
    (isFinite_least_greatest hhigh.z hp.z).2⟩

/-- A box around finite places is finite. -/
lemma FinitePlaces.finite_bounds {t : Tree} (h : t.FinitePlaces) {b : Box}
    (hb : t.geometry.bounds = some b) : b.low.Finite ∧ b.high.Finite := by
  have hgrown : ∀ (ps : List Vec3) (b : Box), b.low.Finite ∧ b.high.Finite →
      (∀ p ∈ ps, p.Finite) →
        (ps.foldl Box.include b).low.Finite ∧ (ps.foldl Box.include b).high.Finite := by
    intro ps
    induction ps with
    | nil => exact fun b hb _ => hb
    | cons p ps ih =>
      intro b hb hps
      exact ih _ (finite_include hb.1 hb.2 (hps p List.mem_cons_self)) fun q hq =>
        hps q (List.mem_cons_of_mem p hq)
  have hpositions : ∀ p ∈ t.geometry.positions, p.Finite := by
    intro p hp
    rw [← Vec3.isFinite_eq_true_iff]
    rcases List.mem_append.mp hp with hp | hp
    · obtain ⟨c, hc, hp⟩ := List.mem_flatMap.mp hp
      obtain ⟨k, hk, rfl⟩ := List.mem_map.mp hp
      exact h.knots c hc k hk
    · obtain ⟨l, hl, rfl⟩ := List.mem_map.mp hp
      exact h.blades l hl
  rw [Geometry.bounds] at hb
  cases hps : t.geometry.positions with
  | nil =>
    rw [hps] at hb
    cases hb
  | cons p ps =>
    rw [hps] at hb hpositions
    cases hb
    have hp := hpositions p List.mem_cons_self
    exact hgrown ps _ ⟨hp, hp⟩ fun q hq => hpositions q (List.mem_cons_of_mem p hq)

end Tree

/-! ## Parts -/

namespace Turtle

variable {s : Settings} {n k : ℕ}

lemma boxed_of_inside {v : Vec3} (hn : n ≤ 2 ^ 24) (h : v.Inside (reach k n)) :
    v.Boxed (k + 26) := by
  have hle : reach k n ≤ 2 ^ (k + 26) := by
    have hn' : (n : ℝ) ≤ 2 ^ 24 := by exact_mod_cast hn
    calc reach k n ≤ 2 ^ 24 * 2 ^ (k + 2) := mul_le_mul_of_nonneg_right hn' (by positivity)
      _ = 2 ^ (k + 26) := by rw [← pow_add, Nat.add_comm]
  have hbelow : ∀ {c : Float32}, Within (-reach k n) (reach k n) c → Below (k + 26) c :=
    fun hc => hc.below (neg_le_neg hle) hle
  exact ⟨hbelow h.x, hbelow h.y, hbelow h.z⟩

lemma Segment.Sound.moderate {g : Segment} (h : g.Sound s n) (hn : n ≤ 2 ^ 24)
    (hinitial : val s.initialLength ≤ 2 ^ 60) : Assembly.Moderate g where
  start := boxed_of_inside hn (h.start 60 (by decide) hinitial)
  stop := boxed_of_inside hn (h.stop 60 (by decide) hinitial)
  near := h.near 60 (by decide) hinitial

/-- The place of a blade is off that of its leaf by the offset. -/
lemma Leaf.Sound.finite_jittered {l : Leaf} (h : l.Sound s n) (hn : n ≤ 2 ^ 24)
    (hinitial : val s.initialLength ≤ 2 ^ 100) : l.jittered.Finite :=
  ((boxed_of_inside hn (h.position 100 le_rfl hinitial)).add h.jitter (n := 127) (by norm_num)
    (by norm_num) (by norm_num)).finite

end Turtle

namespace Plan

variable {p : Plan} {seed : UInt64} {w : Word}

lemma segment_sound_treeOf (hs : p.recipe.turtle.Admissible) (hw : w.length < 2 ^ 24) :
    ∀ g ∈ (p.treeOf seed w).trace.segments, g.Sound p.recipe.turtle w.length :=
  fun _ hg => Turtle.segment_sound hs _ hw hg

lemma leaf_sound_treeOf (hs : p.recipe.turtle.Admissible) (hw : w.length < 2 ^ 24) :
    ∀ l ∈ (p.treeOf seed w).trace.leaves, l.Sound p.recipe.turtle w.length :=
  fun _ hl => Turtle.leaf_sound hs _ hw hl

/-- A blade is a leaf of the trace with a twist. -/
lemma exists_leaf_of_mem_leaves {l : LeafInstance} (hl : l ∈ (p.treeOf seed w).geometry.leaves) :
    ∃ leaf ∈ (p.treeOf seed w).trace.leaves, ∃ t : Frame, t.Boxed 87 ∧
      l = Assembly.placeLeaf p.recipe.assembly.leafSize leaf t := by
  have hcases : (p.treeOf seed w).geometry.leaves =
      if p.recipe.assembly.addLeaves then
        Assembly.placeLeaves { p.recipe.assembly with seed := seed } (p.treeOf seed w).trace.leaves
      else [] := rfl
  rw [hcases] at hl
  split_ifs at hl
  · obtain ⟨leaf, hleaf, t, ht, rfl⟩ := Assembly.exists_of_mem_placeLeaves hl
    exact ⟨leaf, hleaf, t, ht, rfl⟩
  · cases hl

lemma finiteForms_treeOf (hs : p.recipe.turtle.Admissible) (hw : w.length < 2 ^ 24) :
    (p.treeOf seed w).FiniteForms where
  segments g hg :=
    have hsound := segment_sound_treeOf hs hw g hg
    ⟨isFinite_iff.mpr hsound.startRadius, isFinite_iff.mpr hsound.stopRadius⟩
  leaves l hl :=
    have hsound := leaf_sound_treeOf hs hw l hl
    ⟨hsound.orientation.boxed.finite, Vec3.isFinite_eq_true_iff.mpr hsound.jitter.finite⟩
  knots b hb k hk := by
    obtain ⟨g, hg, ⟨-, hradius⟩ | ⟨-, hradius⟩⟩ := Assembly.exists_segment_of_mem_knots hb hk
    · rw [hradius]
      exact isFinite_iff.mpr (segment_sound_treeOf hs hw g hg).startRadius
    · rw [hradius]
      exact isFinite_iff.mpr (segment_sound_treeOf hs hw g hg).stopRadius
  blades l hl := by
    obtain ⟨leaf, hleaf, t, ht, rfl⟩ := exists_leaf_of_mem_leaves hl
    have horientation := (leaf_sound_treeOf hs hw leaf hleaf).orientation.boxed
    exact (ht.mul horientation (n := 92) (by norm_num) (by norm_num)).finite

lemma finitePlaces_treeOf (hs : p.recipe.turtle.Admissible) (hw : w.length < 2 ^ 24)
    (hinitial : val p.recipe.turtle.initialLength ≤ 2 ^ 100) :
    (p.treeOf seed w).FinitePlaces := by
  have hsegments : ∀ g ∈ (p.treeOf seed w).trace.segments, g.start.isFinite ∧ g.stop.isFinite :=
    fun g hg =>
      have hsound := segment_sound_treeOf hs hw g hg
      ⟨Vec3.isFinite_eq_true_iff.mpr (hsound.start 100 le_rfl hinitial).finite,
        Vec3.isFinite_eq_true_iff.mpr (hsound.stop 100 le_rfl hinitial).finite⟩
  refine ⟨hsegments, fun l hl => ?_, fun b hb k hk => ?_, fun l hl => ?_⟩
  · have hsound := leaf_sound_treeOf hs hw l hl
    exact Vec3.isFinite_eq_true_iff.mpr (hsound.position 100 le_rfl hinitial).finite
  · obtain ⟨g, hg, ⟨hposition, -⟩ | ⟨hposition, -⟩⟩ :=
      Assembly.exists_segment_of_mem_knots hb hk
    · rw [hposition]
      exact (hsegments g hg).1
    · rw [hposition]
      exact (hsegments g hg).2
  · obtain ⟨leaf, hleaf, t, -, rfl⟩ := exists_leaf_of_mem_leaves hl
    have hsound := leaf_sound_treeOf hs hw leaf hleaf
    exact Vec3.isFinite_eq_true_iff.mpr (hsound.finite_jittered hw.le hinitial)

lemma finiteHandles_treeOf (hs : p.recipe.turtle.Admissible) (hw : w.length < 2 ^ 24)
    (hinitial : val p.recipe.turtle.initialLength ≤ 2 ^ 60) :
    (p.treeOf seed w).FiniteHandles := by
  intro b hb k hk
  obtain ⟨hleft, hright⟩ := Assembly.finite_handles
    (fun g hg => (segment_sound_treeOf hs hw g hg).moderate hw.le hinitial) hb hk
  exact ⟨Vec3.isFinite_eq_true_iff.mpr hleft, Vec3.isFinite_eq_true_iff.mpr hright⟩

/-! ## Grown trees -/

lemma length_lt_of_word_eq_ok (h : p.word = .ok w) : w.length < 2 ^ 24 := by
  have hle : w.length ≤ Limits.ceiling :=
    le_trans (Productions.length_le_of_derive_eq_ok p.productions h) (Nat.min_le_right ..)
  exact hle.trans_lt (by decide)

section Grown

variable {r : Recipe} {t : Tree} (h : ofRecipe r = .ok p) (ht : p.growWith seed = .ok t)

include h ht

/-- A grown tree is made of a word within the ceiling, by settings that can be used. -/
lemma exists_word_of_growWith : ∃ w : Word, w.length < 2 ^ 24 ∧ t = p.treeOf seed w ∧
    p.recipe.turtle.Admissible ∧ p.recipe.turtle.initialLength = r.initialLength := by
  obtain ⟨w, hword, hturtle, -, htree⟩ := (p.growWith_eq_ok_iff seed t).mp ht
  refine ⟨w, length_lt_of_word_eq_ok hword, htree, Turtle.Settings.admissible_of_check hturtle, ?_⟩
  rw [(checks_of_ofRecipe h).1]
  rfl

lemma val_initialLength_le {k : ℕ} {b : Float32} (hb : Below k b) (hle : r.initialLength ≤ b) :
    val p.recipe.turtle.initialLength ≤ 2 ^ k := by
  obtain ⟨-, -, -, hs, hlength⟩ := exists_word_of_growWith h ht
  have hfinite := hs.initialLength.1
  rw [hlength] at hfinite ⊢
  exact ((le_iff_val_le hfinite hb.1).mp hle).trans (le_of_abs_le hb.2)

lemma finitePlaces_of_growWith (hle : r.initialLength ≤ 1e30) : t.FinitePlaces := by
  obtain ⟨w, hw, rfl, hs, -⟩ := exists_word_of_growWith h ht
  have hbound : Below 100 (1e30 : Float32) :=
    (below_iff_toNat_le (by norm_num)).mpr (by decide +kernel)
  exact finitePlaces_treeOf hs hw (val_initialLength_le h ht hbound hle)

lemma finiteHandles_of_growWith (hle : r.initialLength ≤ 1e18) :
    t.FinitePlaces ∧ t.FiniteHandles := by
  obtain ⟨w, hw, rfl, hs, -⟩ := exists_word_of_growWith h ht
  have hbound : Below 60 (1e18 : Float32) :=
    (below_iff_toNat_le (by norm_num)).mpr (by decide +kernel)
  have hinitial := val_initialLength_le h ht hbound hle
  exact ⟨finitePlaces_treeOf hs hw (hinitial.trans (by norm_num)),
    finiteHandles_treeOf hs hw hinitial⟩

/-- **The numbers of a grown tree are finite.**  With every seed its radii, frames and offsets are;
if the first length is `1e30` at most its places are, and if it is `1e18` at most its handles are
too. -/
theorem finite_of_growWith :
    t.FiniteForms ∧ (r.initialLength ≤ 1e30 → t.FinitePlaces) ∧
      (r.initialLength ≤ 1e18 → t.FinitePlaces ∧ t.FiniteHandles) := by
  refine ⟨?_, finitePlaces_of_growWith h ht, finiteHandles_of_growWith h ht⟩
  obtain ⟨w, hw, rfl, hs, -⟩ := exists_word_of_growWith h ht
  exact finiteForms_treeOf hs hw

end Grown

/-- The growth of a recipe, computed up to a property of its tree. -/
lemma exists_growWith (r : Recipe) (seed : UInt64) (P : Tree → Prop) [DecidablePred P]
    (h : (do (← ofRecipe r).growWith seed).toOption.any (fun t => decide (P t)) = true) :
    ∃ p t, ofRecipe r = .ok p ∧ p.growWith seed = .ok t ∧ P t := by
  cases hp : ofRecipe r with
  | error e =>
    rw [hp] at h
    cases h
  | ok p =>
    rw [hp] at h
    change (p.growWith seed).toOption.any _ = true at h
    cases ht : p.growWith seed with
    | error e =>
      rw [ht] at h
      cases h
    | ok t =>
      rw [ht] at h
      exact ⟨p, t, rfl, ht, of_decide_eq_true h⟩

/-- A forked tree with the longest first length for which the handles are followed. -/
theorem finite_of_growWith_forked : ∃ p t,
    ofRecipe { Recipe.usual with
      axiomText := "F[+F]F", rulesText := "", iterations := 0, initialLength := 1e18 } = .ok p ∧
    p.growWith 7 = .ok t ∧ t.FiniteForms ∧ t.FinitePlaces ∧ t.FiniteHandles := by
  obtain ⟨p, t, hp, ht, -⟩ := exists_growWith { Recipe.usual with
      axiomText := "F[+F]F", rulesText := "", iterations := 0, initialLength := 1e18 } 7
    (fun _ => True) (by decide +kernel)
  obtain ⟨hforms, -, hhandles⟩ := finite_of_growWith hp ht
  exact ⟨p, t, hp, ht, hforms, hhandles (by decide +kernel)⟩

/-- Neither bound of the first length can be left out.  The square of a single move may be infinite,
and then the places at its ends are finite, but the handles between them are no numbers; two moves
may lead to a place that is not finite. -/
theorem exists_growWith_not_finite :
    (∃ p t, ofRecipe { Recipe.usual with
        axiomText := "F", rulesText := "", iterations := 0, initialLength := 2e19,
        lengthJitter := 0, addLeaves := false } = .ok p ∧
      p.growWith 42 = .ok t ∧ t.FinitePlaces ∧ ¬ t.FiniteHandles) ∧
    ∃ p t, ofRecipe { Recipe.usual with
        axiomText := "FF", rulesText := "", iterations := 0, initialLength := 3e38,
        lengthJitter := 0, addLeaves := false } = .ok p ∧
      p.growWith 42 = .ok t ∧ ¬ t.FinitePlaces := by
  constructor
  · obtain ⟨p, t, hp, ht, hhandles⟩ := exists_growWith { Recipe.usual with
        axiomText := "F", rulesText := "", iterations := 0, initialLength := 2e19,
        lengthJitter := 0, addLeaves := false } 42
      (fun t => ¬ t.FiniteHandles) (by decide +kernel)
    exact ⟨p, t, hp, ht, finitePlaces_of_growWith hp ht (by decide +kernel), hhandles⟩
  · obtain ⟨p, t, hp, ht, hplaces⟩ := exists_growWith { Recipe.usual with
        axiomText := "FF", rulesText := "", iterations := 0, initialLength := 3e38,
        lengthJitter := 0, addLeaves := false } 42
      (fun t => ¬ ∀ g ∈ t.trace.segments, g.start.isFinite ∧ g.stop.isFinite) (by decide +kernel)
    exact ⟨p, t, hp, ht, fun h => hplaces h.segments⟩

end Plan

end Arbor
