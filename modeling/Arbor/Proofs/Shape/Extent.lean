import Arbor.Proofs.Shape.Twists
import Arbor.Proofs.Turtle.Extent
import Mathlib.Data.List.SplitBy

/-!
# Extent of the branches

The knots of a branch are ends of segments, so their places and radii are finite if those of the
segments are.  The handles need more: they reach a third of the way to a neighbour, and this way is
measured by a sum of squares.  Neighbours in a branch are the ends of one segment up to the width of
a joint (`near_of_continues`), so the square is in range as long as a step is.
-/

namespace Arbor

open Number Chance

/-! ## Handles -/

namespace Handles

variable {b : ℝ} {knots : List Vec3} {R : Vec3 → Vec3 → Prop}

/-- Each pair of handles belongs to a knot and its neighbours. -/
lemma exists_of_mem_auto {h : Handles} (hh : h ∈ auto knots) (hR : knots.IsChain R) :
    ∃ p ∈ knots, ∃ before after : Option Vec3, h = atKnot before p after ∧
      (∀ a ∈ before, a ∈ knots ∧ R a p) ∧ ∀ a ∈ after, a ∈ knots ∧ R p a := by
  have hnext : ∀ {i : ℕ} {p q : Vec3}, knots[i]? = some p → knots[i + 1]? = some q → R p q := by
    intro i p q hp hq
    obtain ⟨hi, rfl⟩ := List.getElem?_eq_some_iff.mp hp
    obtain ⟨hi', rfl⟩ := List.getElem?_eq_some_iff.mp hq
    exact List.isChain_iff_getElem.mp hR i hi'
  obtain ⟨⟨p, before, after⟩, hmem, rfl⟩ := List.mem_map.mp hh
  obtain ⟨i, hi⟩ := List.mem_iff_getElem?.mp hmem
  obtain ⟨hp, hneighbours⟩ := List.getElem?_zip_eq_some.mp hi
  obtain ⟨hbefore, hafter⟩ := List.getElem?_zip_eq_some.mp hneighbours
  dsimp only at hp hbefore hafter
  refine ⟨p, List.mem_of_getElem? hp, before, after, rfl, ?_, ?_⟩
  · rintro a rfl
    cases i with
    | zero => simp at hbefore
    | succ i =>
      have ha : knots[i]? = some a := by simpa using hbefore
      exact ⟨List.mem_of_getElem? ha, hnext ha hp⟩
  · rintro a rfl
    have ha : knots[i + 1]? = some a := by
      rcases lt_or_ge i (knots.tail.map some).length with hlt | hge
      · rw [List.getElem?_append_left hlt] at hafter
        simpa using hafter
      · rw [List.getElem?_append_right hge] at hafter
        have := List.mem_of_getElem? hafter
        simp at this
    exact ⟨List.mem_of_getElem? ha, hnext hp ha⟩

lemma boxed_tangent {p : Vec3} {before after : Option Vec3} (hp : p.Boxed 86)
    (hbefore : ∀ a ∈ before, a.Boxed 86) (hafter : ∀ a ∈ after, a.Boxed 86) :
    (tangent before p after).Boxed 1 := by
  have hchord : ∀ {a c : Vec3}, a.Boxed 86 → c.Boxed 86 → (c - a).normalize.Boxed 1 := by
    intro a c ha hc
    exact Vec3.boxed_normalize (hc.sub ha (n := 87) (by norm_num) (by norm_num) (by norm_num)).finite
  match before, after with
  | some a, some c => exact hchord (hbefore a rfl) (hafter c rfl)
  | none, some c => exact hchord hp (hafter c rfl)
  | some a, none => exact hchord (hbefore a rfl) hp
  | none, none =>
    exact ⟨below_zero.mono (by norm_num), below_zero.mono (by norm_num),
      below_zero.mono (by norm_num)⟩

/-- A third of the way to a neighbour is no longer than the way. -/
lemma below_reach_of_way {p : Vec3} {neighbour : Option Vec3} {n : ℕ} (hn : n ≤ 63)
    (h : ∀ a ∈ neighbour, (p - a).Boxed n) : Below (n + 1) (reach p neighbour) := by
  match neighbour with
  | none => exact below_zero.mono (Nat.zero_le _)
  | some a =>
    obtain ⟨hfinite, hle⟩ : Below (n + 1) (p.distance a) := Vec3.below_length (h a rfl) hn
    have hthree : IsFinite (3 : Float32) := isFinite_iff.mp (by decide)
    have hone : 1 ≤ val (3 : Float32) := by
      rw [← val_one, ← le_iff_val_le below_one.1 hthree]
      decide
    have hpos : 0 < val (3 : Float32) := by linarith
    apply below_div (by change n + 1 < 128; omega) hfinite hthree hpos.ne'
    rw [abs_div, abs_of_pos hpos]
    exact (div_le_self (abs_nonneg _) hone).trans hle

lemma below_reach {p : Vec3} {neighbour : Option Vec3} (hp : p.Finite)
    (h : ∀ a ∈ neighbour, a.Finite ∧ Vec3.Near (2 ^ 63) a p) :
    Below 64 (Handles.reach p neighbour) := by
  refine below_reach_of_way le_rfl fun a hmem => ?_
  obtain ⟨ha, hnear⟩ := h a hmem
  exact ⟨below_sub (by decide) hp.x ha.x hnear.x, below_sub (by decide) hp.y ha.y hnear.y,
    below_sub (by decide) hp.z ha.z hnear.z⟩

/-- Handles are finite if the knots are moderate and each is near its neighbours. -/
lemma finite_atKnot {p : Vec3} {before after : Option Vec3} (hp : p.Boxed 86)
    (hbefore : ∀ a ∈ before, a.Boxed 86 ∧ Vec3.Near (2 ^ 63) a p)
    (hafter : ∀ a ∈ after, a.Boxed 86 ∧ Vec3.Near (2 ^ 63) p a) :
    (atKnot before p after).left.Finite ∧ (atKnot before p after).right.Finite := by
  have htangent := boxed_tangent hp (fun a ha => (hbefore a ha).1) fun a ha => (hafter a ha).1
  have hleft := below_reach hp.finite fun a ha => ⟨(hbefore a ha).1.finite, (hbefore a ha).2⟩
  have hright : Below 64 (Handles.reach p after) := below_reach hp.finite fun a ha =>
    ⟨(hafter a ha).1.finite, (hafter a ha).2.symm⟩
  have hleft' := htangent.scale hleft (n := 65) le_rfl (by norm_num)
  have hright' := htangent.scale hright (n := 65) le_rfl (by norm_num)
  exact ⟨(hp.sub hleft' (n := 87) (by norm_num) (by norm_num) (by norm_num)).finite,
    (hp.add hright' (n := 87) (by norm_num) (by norm_num) (by norm_num)).finite⟩

end Handles

/-! ## Joints -/

namespace Assembly

lemma joint_lt_one : IsFinite joint ∧ val joint < 1 := by
  have hfinite : IsFinite joint := isFinite_iff.mp (by decide)
  refine ⟨hfinite, ?_⟩
  rw [← val_one, ← lt_iff_val_lt hfinite below_one.1]
  decide

/-- Ends that count as one point differ by less than one. -/
lemma near_of_distance_le {p q : Vec3} (hp : p.Boxed 86) (hq : q.Boxed 86)
    (h : p.distance q ≤ joint) : Vec3.Near 1 p q := by
  have hboxed := hp.sub hq (n := 87) (by norm_num) (by norm_num) (by norm_num)
  have hshort : ∀ {x y : Float32}, Below 86 x → Below 86 y →
      (2 ^ (0 : ℤ) ≤ |val (x - y)| → AtLeast (2 ^ (0 : ℤ)) (p - q).length) →
      |val y - val x| ≤ 1 := by
    intro x y hx hy hlong
    by_contra! hfar
    have hsub : |val x - val y| ≤ 2 ^ 87 := by
      have := (abs_sub (val x) (val y)).trans (add_le_add hx.2 hy.2)
      linarith
    have hval := (finite_sub hx.1 hy.1
      (abs_rounded_lt_of_abs_le (n := 87) (by decide) hsub)).2
    have hlarge : 2 ^ (0 : ℤ) ≤ |val (x - y)| := by
      rw [hval]
      apply (onGrid_zpow (by decide)).le_abs_rounded
      rw [zpow_zero, abs_sub_comm]
      exact hfar.le
    have hjoint := (hlong hlarge).le_val joint_lt_one.1 h
    rw [zpow_zero] at hjoint
    exact absurd joint_lt_one.2 (not_lt.mpr hjoint)
  exact ⟨hshort hp.x hq.x fun hx => Vec3.atLeast_length hboxed.finite (by norm_num) (.inl hx),
    hshort hp.y hq.y fun hy => Vec3.atLeast_length hboxed.finite (by norm_num) (.inr (.inl hy)),
    hshort hp.z hq.z fun hz => Vec3.atLeast_length hboxed.finite (by norm_num) (.inr (.inr hz))⟩

/-- A finite point counts as the same point as itself. -/
lemma distance_self_le_joint {p : Vec3} (hp : p.Finite) : p.distance p ≤ joint := by
  have hzero := Vec3.within_distance_self hp
  have hjoint : (0 : Float32) ≤ joint := by decide
  rw [le_iff_val_le below_zero.1 joint_lt_one.1, val_zero] at hjoint
  rw [le_iff_val_le hzero.1 joint_lt_one.1]
  exact hzero.2.2.trans hjoint

/-! ## Knots -/

variable {bevel : Float32} {segments : List Turtle.Segment} {b : Branch} {k : Knot}

lemma mem_of_mem_run {run : List Turtle.Segment} {g : Turtle.Segment}
    (hrun : run ∈ segments.splitBy continues) (hg : g ∈ run) : g ∈ segments := by
  rw [← List.flatten_splitBy continues segments]
  exact List.mem_flatten_of_mem hrun hg

/-- A knot is an end of a segment, with its radius there. -/
lemma exists_segment_of_mem_knots (hb : b ∈ branches bevel segments) (hk : k ∈ b.knots) :
    ∃ g ∈ segments, (k.position = g.start ∧ k.radius = g.startRadius) ∨
      (k.position = g.stop ∧ k.radius = g.stopRadius) := by
  obtain ⟨run, hrun, rfl⟩ := List.mem_map.mp hb
  cases run with
  | nil => cases hk
  | cons g rest =>
    obtain ⟨⟨h, s⟩, hmem, rfl⟩ := List.mem_map.mp hk
    rcases List.mem_cons.mp (List.of_mem_zip hmem).2 with rfl | hs
    · exact ⟨g, mem_of_mem_run hrun List.mem_cons_self, .inl ⟨rfl, rfl⟩⟩
    · obtain ⟨t, ht, rfl⟩ := List.mem_map.mp hs
      exact ⟨t, mem_of_mem_run hrun ht, .inr ⟨rfl, rfl⟩⟩

/-- A segment at moderate places that is not long. -/
structure Moderate (g : Turtle.Segment) : Prop where
  start : g.start.Boxed 86
  stop : g.stop.Boxed 86
  near : Vec3.Near (3 * 2 ^ 61) g.start g.stop

lemma near_of_continues {s t : Turtle.Segment} (hs : Moderate s) (ht : Moderate t)
    (h : continues s t = true) : Vec3.Near (2 ^ 63) s.stop t.stop := by
  rw [continues, Bool.and_eq_true] at h
  exact ((near_of_distance_le hs.stop ht.start (of_decide_eq_true h.2)).trans ht.near).mono
    (by norm_num)

/-- The ends of a run, from a point near the first one. -/
lemma isChain_ends {p : Vec3} {run : List Turtle.Segment}
    (hfirst : ∀ s ∈ run.head?, Vec3.Near (2 ^ 63) p s.stop)
    (hrun : run.IsChain fun s t => continues s t = true) (hmoderate : ∀ g ∈ run, Moderate g) :
    (p :: run.map Turtle.Segment.stop).IsChain (Vec3.Near (2 ^ 63)) := by
  induction run generalizing p with
  | nil => exact .singleton p
  | cons s rest ih =>
    refine .cons_cons (hfirst s rfl) (ih ?_ hrun.tail fun g hg =>
      hmoderate g (List.mem_cons_of_mem s hg))
    intro t ht
    obtain ⟨rest', rfl⟩ : ∃ rest', rest = t :: rest' := List.head?_eq_some_iff.mp ht
    exact near_of_continues (hmoderate s List.mem_cons_self)
      (hmoderate t (List.mem_cons_of_mem s List.mem_cons_self)) hrun.rel

/-- The handles of the branches of moderate segments are finite. -/
lemma finite_handles (hmoderate : ∀ g ∈ segments, Moderate g) (hb : b ∈ branches bevel segments)
    (hk : k ∈ b.knots) : k.left.Finite ∧ k.right.Finite := by
  obtain ⟨run, hrun, rfl⟩ := List.mem_map.mp hb
  have hmoderate : ∀ g ∈ run, Moderate g := fun g hg => hmoderate g (mem_of_mem_run hrun hg)
  cases run with
  | nil => cases hk
  | cons g rest =>
    obtain ⟨⟨h, s⟩, hmem, rfl⟩ := List.mem_map.mp hk
    have hg := hmoderate g List.mem_cons_self
    have hhandles := (List.of_mem_zip hmem).1
    rw [List.map_cons, List.map_map] at hhandles
    have hboxed : ∀ p ∈ g.start :: (g :: rest).map Turtle.Segment.stop, p.Boxed 86 := by
      intro p hp
      rcases List.mem_cons.mp hp with rfl | hp
      · exact hg.start
      · obtain ⟨t, ht, rfl⟩ := List.mem_map.mp hp
        exact (hmoderate t ht).stop
    have hchain := isChain_ends (p := g.start)
      (fun s hs => by cases hs; exact hg.near.mono (by norm_num))
      (List.isChain_of_mem_splitBy hrun) hmoderate
    obtain ⟨p, hp, before, after, rfl, hbefore, hafter⟩ :=
      Handles.exists_of_mem_auto hhandles hchain
    exact Handles.finite_atKnot (hboxed p hp) (fun a ha => ⟨hboxed a (hbefore a ha).1,
      (hbefore a ha).2⟩) fun a ha => ⟨hboxed a (hafter a ha).1, (hafter a ha).2⟩

end Assembly

end Arbor
