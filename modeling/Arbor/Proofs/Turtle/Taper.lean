import Arbor.Proofs.Lindenmayer.Nesting
import Arbor.Proofs.Number.ArcCosine
import Arbor.Proofs.Number.Unbounded
import Arbor.Proofs.Turtle.Admissible
import Arbor.Proofs.Turtle.Form

/-!
# Taper

Along every live path the radius only decreases.  A move and an opening bracket both multiply it by
a factor up to one, rounding does not undo that (`within_decayed`), and a closing bracket goes back
along the live path; so a place sees at least the factors that each place of its live path has seen
(`liveCount_le_of_mem`).

Whether a radius decreases at all is a matter of rounding: by the largest factor below one, a number
decreases by half of a unit or more, which is enough as long as the number is not one of the
smallest (`val_mul_lt`).
-/

namespace Arbor

/-! ## Factors -/

namespace Number

variable {x y factor : Float32} {m n : ℕ}

/-- The largest number below one. -/
lemma val_le_of_lt_one (hy : Within 0 1 y) (h : val y < 1) : val y ≤ 1 - 1 / 2 ^ 24 := by
  have hval := abs_val_single hy.1
  rw [abs_of_nonneg hy.2.1] at hval
  rw [hval, ← magnitude_one, magnitude_strictMono.lt_iff_lt] at h
  rw [hval, ← magnitude_pred_one]
  exact magnitude_strictMono.monotone (by omega)

/-- A number from the full range is not reached again by rounding from below, over a gap of half the
unit of the numbers that begin with its leading power. -/
lemma rounded_lt_of_le_sub {a r : ℝ} (ha : 2 ^ (-125 : ℤ) ≤ a) (h0 : 0 ≤ r)
    (hr : r ≤ a - a / 2 ^ 24) : rounded .binary32 r < a := by
  have hpos : 0 < a := lt_of_lt_of_le (by positivity) ha
  have hgap : 0 < a / 2 ^ 24 := by positivity
  have hlog := le_log_of_zpow_le ha
  have hleading : (2 : ℝ) ^ Int.log 2 a ≤ a := by
    exact_mod_cast Int.zpow_log_le_self (b := 2) (by norm_num) hpos
  set L := Int.log 2 a with hL
  have hhalf : (2 : ℝ) ^ (L - 24) = 2 ^ L / 2 ^ 24 := by
    rw [zpow_sub₀ (by norm_num)]
    norm_cast
  rcases hleading.lt_or_eq with hlt | heq
  · rcases h0.eq_or_lt with rfl | hr0
    · rwa [rounded_zero]
    · -- The unit is not larger below `a`, and rounding makes up for half of it at most.
      have hunit : unitExponent .binary32 r ≤ L - 23 := by
        have hmin : Float.Model.Format.binary32.minExponent = -149 := rfl
        refine unitExponent_le_of_lt .binary32 hr0.ne' (by omega) ?_
        have hnext : a < 2 ^ (L + 1) := by
          exact_mod_cast Int.lt_zpow_succ_log_self (b := 2) (by norm_num) a
        have htop : L - 23 + (Float.Model.Format.binary32.mantissaBits : ℕ) = L + 1 := by
          change L - 23 + ((24 : ℕ) : ℤ) = L + 1
          ring
        rw [abs_of_pos hr0, htop]
        linarith
      have hpow : (2 : ℝ) ^ unitExponent .binary32 r ≤ 2 * 2 ^ (L - 24) := by
        rw [← zpow_one_add₀ (by norm_num), show 1 + (L - 24) = L - 23 by ring]
        exact zpow_le_zpow_right₀ (by norm_num) hunit
      have herror := (abs_le.mp (abs_rounded_sub_le .binary32 r)).2
      have hless : (2 : ℝ) ^ L / 2 ^ 24 < a / 2 ^ 24 := by gcongr
      linarith
  · -- Below a power of two the unit is half as large, and the end of the gap is a number itself.
    rw [← heq] at hr
    have hgrid : OnGrid .binary32 (2 ^ L - 2 ^ L / 2 ^ 24) := by
      refine ⟨2 ^ 24 - 1, L - 24, by decide, by show -149 ≤ L - 24; omega, ?_⟩
      rw [hhalf]
      push_cast
      ring
    have hle := hgrid.rounded_le hr
    linarith

/-- A factor below one makes a number smaller, unless the number is next to the smallest ones. -/
lemma val_mul_lt (hx : IsFinite x) (hlow : 2 ^ (-125 : ℤ) ≤ val x) (hy : Within 0 1 y)
    (h : val y < 1) : val (x * y) < val x := by
  have hpos : 0 < val x := lt_of_lt_of_le (by positivity) hlow
  have hproduct : 0 ≤ val x * val y := mul_nonneg hpos.le hy.2.1
  have hless : rounded .binary32 (val x * val y) < val x := by
    refine rounded_lt_of_le_sub hlow hproduct ?_
    have := mul_le_mul_of_nonneg_left (val_le_of_lt_one hy h) hpos.le
    linarith
  have hlimit : |rounded .binary32 (val x * val y)| < limit .binary32 := by
    rw [abs_of_nonneg (rounded_nonneg _ hproduct)]
    exact hless.trans (lt_of_abs_lt hx.abs_val_lt)
  exact (finite_mul hx hy.1 hlimit).2.trans_lt hless

/-- The unit of the numbers at `2^-126` is too large for that: they can stay as they are. -/
example : Float32.ofBits 0x00800000 * Float32.ofBits 0x3F7FFFFF = Float32.ofBits 0x00800000 := by
  decide +kernel

end Number

open Number

namespace Turtle

open Word

/-! ## Radii along a live path -/

section Decayed

variable {x factor : Float32} {m n : ℕ}

lemma decayed_add (factor : Float32) (m n : ℕ) (x : Float32) :
    decayed factor (m + n) x = decayed factor n (decayed factor m x) := by
  rw [Nat.add_comm]
  exact Function.iterate_add_apply _ n m x

/-- Factors up to one do not enlarge, however many there are. -/
lemma within_decayed (hx : IsFinite x) (h0 : 0 ≤ val x) (h : Within 0 1 factor) (n : ℕ) :
    Within 0 (val x) (decayed factor n x) := by
  induction n with
  | zero => exact ⟨hx, h0, le_rfl⟩
  | succ n ih =>
    have hstep := within_shrink ih.1 ih.2.1 h
    rw [decayed_succ]
    exact ⟨hstep.1, hstep.2.1, hstep.2.2.trans ih.2.2⟩

lemma val_decayed_le (hx : IsFinite x) (h0 : 0 ≤ val x) (h : Within 0 1 factor) (hmn : m ≤ n) :
    val (decayed factor n x) ≤ val (decayed factor m x) := by
  obtain ⟨k, rfl⟩ := Nat.exists_eq_add_of_le hmn
  have hbefore := within_decayed hx h0 h m
  rw [decayed_add]
  exact (within_decayed hbefore.1 hbefore.2.1 h k).2.2

end Decayed

/-- What has been counted up to a place of a live path stays counted along it. -/
lemma liveCount_le_of_mem (kind : Symbol → Bool) {w : Word} {i j : ℕ} (hj : j ∈ livePath w i)
    (hp : w[j]? ≠ some .pop) : liveCount kind w (j + 1) ≤ liveCount kind w i := by
  have hsubset : livePath w (j + 1) ⊆ livePath w i := by
    intro k hk
    rw [livePath_succ_of_ne_pop hp, List.mem_append, List.mem_singleton] at hk
    rcases hk with hk | rfl
    · exact (mem_livePath_of_mem hj (mem_livePath.mp hk).1).mp hk
    · exact hj
  have hnodup : (livePath w (j + 1)).Nodup := (livePath_pairwise_lt w (j + 1)).imp ne_of_lt
  exact (hnodup.subperm hsubset).countP_le _

/-- The radius at the end of a drawn move bounds the radius wherever the move is live. -/
lemma val_decayed_le_of_mem {factor x : Float32} (hx : IsFinite x) (h0 : 0 ≤ val x)
    (h : Within 0 1 factor) {w : Word} {i j : ℕ} (hj : j ∈ livePath w i)
    (hf : w[j]? = some .forward) :
    val (decayed factor (moves w i + pushes w i) x) ≤
      val (decayed factor (moves w j + pushes w j + 1) x) := by
  have hp : w[j]? ≠ some .pop := by simp [hf]
  have hmoves : moves w (j + 1) ≤ moves w i := liveCount_le_of_mem _ hj hp
  have hpushes : pushes w (j + 1) ≤ pushes w i := liveCount_le_of_mem _ hj hp
  rw [moves_succ hf (by simp), if_pos (.inl rfl)] at hmoves
  rw [pushes_succ hf (by simp), if_neg (by simp)] at hpushes
  exact val_decayed_le hx h0 h (by omega)

/-! ## Segments -/

/-- A segment that tapers: its radii are finite numbers from zero up to the first radius, and the
end is not thicker than the start.  It is thinner if the factor is below one, unless the segment is
next to nothing. -/
structure Segment.Tapers (s : Settings) (g : Segment) : Prop where
  start_finite : g.startRadius.isFinite = true
  stop_finite : g.stopRadius.isFinite = true
  nonneg : 0 ≤ g.stopRadius
  le_start : g.stopRadius ≤ g.startRadius
  le_initial : g.startRadius ≤ s.initialRadius
  lt_start : s.radiusDecay < 1 → 2 ^ (-125 : ℤ) ≤ val g.startRadius →
    g.stopRadius < g.startRadius

variable {σ : Type} [Source σ] {s : Settings} (source : σ)

lemma segmentAt_tapers (hs : s.Admissible) {w : Word} {i : ℕ} (hi : w[i]? = some .forward) :
    (segmentAt s source w i).Tapers s := by
  have hform := segmentAt_form s source hi
  simp only [formAt, decayed_succ, Prod.mk.injEq] at hform
  obtain ⟨hstart, hstop, -⟩ := hform
  obtain ⟨hx, hpos⟩ := hs.initialRadius
  have hbefore := within_decayed hx hpos.le hs.radiusDecay (moves w i + pushes w i)
  have hafter := within_shrink hbefore.1 hbefore.2.1 hs.radiusDecay
  rw [← hstart] at hstop hbefore hafter
  rw [← hstop] at hafter
  refine ⟨isFinite_iff.mpr hbefore.1, isFinite_iff.mpr hafter.1, ?_, ?_, ?_,
    fun hdecay hlow => ?_⟩
  · rw [le_iff_val_le below_zero.1 hafter.1, val_zero]
    exact hafter.2.1
  · rw [le_iff_val_le hafter.1 hbefore.1]
    exact hafter.2.2
  · rw [le_iff_val_le hbefore.1 hx]
    exact hbefore.2.2
  · rw [lt_iff_val_lt hs.radiusDecay.1 below_one.1, val_one] at hdecay
    rw [lt_iff_val_lt hafter.1 hbefore.1, hstop]
    exact val_mul_lt hbefore.1 hlow hs.radiusDecay hdecay

/-- **Taper.**  Every segment of a walk tapers, from the first radius down, and it starts no thicker
than any segment on the live path of its move has ended, the last one among them. -/
theorem radii_of_walk (h : s.check = .ok ()) (w : Word) :
    ∃ t out, walk s w source = .ok (t, out) ∧ (∀ g ∈ t.segments, g.Tapers s) ∧
      ∀ i, w[i]? = some .forward → ∃ g, t.segments[(w.take i).count .forward]? = some g ∧
        ∀ j ∈ livePath w i, w[j]? = some .forward →
          ∃ prior, t.segments[(w.take j).count .forward]? = some prior ∧
            g.startRadius ≤ prior.stopRadius := by
  have hs := Settings.admissible_of_check h
  obtain ⟨hx, hpos⟩ := hs.initialRadius
  refine ⟨_, _, walk_eq s source h w, fun g hg => ?_, fun i hi => ?_⟩
  · obtain ⟨k, hk⟩ := List.mem_iff_getElem?.mp hg
    obtain ⟨i, hi, -, rfl⟩ := exists_place_of_segments s source hk
    exact segmentAt_tapers source hs hi
  · refine ⟨_, segments_getElem? s source hi, fun j hj hf =>
      ⟨_, segments_getElem? s source hf, ?_⟩⟩
    have hstart := isFinite_iff.mp (segmentAt_tapers source hs hi).start_finite
    have hstop := isFinite_iff.mp (segmentAt_tapers source hs hf).stop_finite
    have hform := segmentAt_form s source hi
    have hform' := segmentAt_form s source hf
    simp only [formAt, Prod.mk.injEq] at hform hform'
    rw [le_iff_val_le hstart hstop, hform.1, hform'.2.1]
    exact val_decayed_le_of_mem hx hpos.le hs.radiusDecay hj hf

/-- A twig behind a closed branch: no segment is thicker at its end, and the twig starts no thicker
than the trunk has ended, two brackets and a skip before it. -/
theorem radii_of_walk_forked : Settings.usual.check = .ok () ∧
    ∃ t out, walk .usual (ofText "F[-F][+[fF") (Chance.Seeded.ofSeed 7) = .ok (t, out) ∧
      (∀ g ∈ t.segments, g.stopRadius ≤ g.startRadius) ∧
      ∃ trunk twig, t.segments[0]? = some trunk ∧ t.segments[2]? = some twig ∧
        trunk.stopRadius < trunk.startRadius ∧ twig.startRadius ≤ trunk.stopRadius := by
  obtain ⟨t, out, hwalk, htapers, hlive⟩ :=
    radii_of_walk (Chance.Seeded.ofSeed 7) Settings.check_usual (ofText "F[-F][+[fF")
  obtain ⟨twig, htwig, hbelow⟩ := hlive 9 (by decide +kernel)
  obtain ⟨trunk, htrunk, hle⟩ := hbelow 0 (by decide +kernel) (by decide +kernel)
  rw [show ((ofText "F[-F][+[fF").take 9).count .forward = 2 by decide +kernel] at htwig
  rw [show ((ofText "F[-F][+[fF").take 0).count .forward = 0 by decide +kernel] at htrunk
  have hone : trunk.startRadius = 1 := by
    rw [walk_eq _ _ Settings.check_usual] at hwalk
    cases hwalk
    have hfirst := segments_getElem? .usual (Chance.Seeded.ofSeed 7)
      (w := ofText "F[-F][+[fF") (i := 0) (by decide +kernel)
    rw [show ((ofText "F[-F][+[fF").take 0).count .forward = 0 by decide +kernel, htrunk,
      Option.some_inj] at hfirst
    rw [hfirst]
    rfl
  refine ⟨Settings.check_usual, t, out, hwalk, fun g hg => (htapers g hg).le_start, trunk, twig,
    htrunk, htwig,
    (htapers trunk (List.mem_of_getElem? htrunk)).lt_start (by decide +kernel) ?_, hle⟩
  rw [hone, val_one]
  norm_num

end Turtle

end Arbor
