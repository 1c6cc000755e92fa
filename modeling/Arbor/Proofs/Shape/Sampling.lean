import Arbor.Proofs.Shape.Grid
import Arbor.Proofs.Space.Magnitude

/-!
# Samples of a curve

The samples of a branch are counted by its spans (`length_sample`), and each span starts at its
first knot: at the parameter zero the weights of a span are one and three zeros
(`sameValue_bezier_zero`), and a finite number is left alone by a factor of one and by the addition
of a zero of either sign (`val_mul_of_one`, `val_add_of_zero`).  So the curve meets every knot
exactly, wherever the handles lie.
-/

namespace Arbor

open Number

namespace Number

/-! ## Neutral operations -/

section Neutral

variable {x y : Float32}

lemma held_one : Held Float32 1 := held_dyadic 1 0 (by norm_num) (by norm_num) (by norm_num)

lemma within_one_one : Within 1 1 (1 : Float32) :=
  ⟨below_one.1, val_one.ge, val_one.le⟩

lemma Within.val_eq {r : ℝ} (h : Within r r x) : val x = r := le_antisymm h.2.2 h.2.1

lemma within_one_mul (hx : Within 1 1 x) (hy : Within 1 1 y) : Within 1 1 (x * y) := by
  apply within_mul held_one held_one hx.1 hy.1 <;> simp [hx.val_eq, hy.val_eq]

lemma within_one_sub (hx : Within 1 1 x) (hy : Within 0 0 y) : Within 1 1 (x - y) := by
  apply within_sub held_one held_one hx.1 hy.1 <;> simp [hx.val_eq, hy.val_eq]

lemma val_mul_of_one (hx : IsFinite x) (hy : Within 1 1 y) :
    IsFinite (x * y) ∧ val (x * y) = val x := by
  have h := finite_mul hx hy.1
  rw [hy.val_eq, mul_one, hx.rounded_val] at h
  exact h hx.abs_val_lt

lemma val_add_of_zero (hx : IsFinite x) (hy : Within 0 0 y) :
    IsFinite (x + y) ∧ val (x + y) = val x := by
  have h := finite_add hx hy.1
  rw [hy.val_eq, add_zero, hx.rounded_val] at h
  exact h hx.abs_val_lt

/-- Finite numbers are equal if they stand for the same real. -/
lemma beq_of_val_eq (hx : IsFinite x) (hy : IsFinite y) (h : val x = val y) : (x == y) = true := by
  show ((unpacked x).compare (unpacked y) == some .eq) = true
  rw [compare_eq_cmp (canonical_unpacked x) (canonical_unpacked y) hx hy, beq_iff_eq,
    Option.some_inj]
  exact (cmp_eq_eq_iff _ _).mpr h

end Neutral

/-! ## Parts of a count -/

/-- A count of a machine word is rounded when it is made a number. -/
lemma val_ofCount_eq_rounded {n : ℕ} (hn : n < 2 ^ 64) :
    IsFinite (ofCount n) ∧ val (ofCount n) = rounded (formatOf Float32) n := by
  have hword : n.toUInt64.toNat = n := Nat.mod_eq_of_lt hn
  have hrounds := rounds_normalize (f := formatOf Float32) (n.toUInt64.toNat : ℤ) 0 .positive
  rw [zpow_zero, mul_one, Int.cast_natCast] at hrounds
  have hfinite := finite_of_rounds (z := ofCount n) rfl hrounds
  rw [hword] at hfinite
  refine hfinite (abs_rounded_lt_of_abs_le (n := 64) (by decide) ?_)
  rw [Nat.abs_cast]
  exact_mod_cast hn.le

end Number

namespace Mesh

variable {i n : ℕ}

/-- A part of a count is a part of one, however large the count. -/
lemma within_part (hi : i ≤ n) (hpos : 0 < n) (hn : n < 2 ^ 64) : Within 0 1 (part i n) := by
  obtain ⟨hfinite, hval⟩ := val_ofCount_eq_rounded (hi.trans_lt hn)
  obtain ⟨hfinite', hval'⟩ := val_ofCount_eq_rounded hn
  have hnonneg : 0 ≤ val (ofCount i) := hval ▸ rounded_nonneg _ (Nat.cast_nonneg i)
  have hle : val (ofCount i) ≤ val (ofCount n) := by
    rw [hval, hval']
    exact rounded_mono _ (by exact_mod_cast hi)
  have hone : 1 ≤ val (ofCount n) := hval' ▸ held_one.1.le_rounded (by exact_mod_cast hpos)
  have hpos' : 0 < val (ofCount n) := one_pos.trans_le hone
  exact within_div held_zero held_one hfinite hfinite' hpos'.ne' (div_nonneg hnonneg hpos'.le)
    ((div_le_one hpos').mpr hle)

lemma within_part_zero (hpos : 0 < n) (hn : n < 2 ^ 64) : Within 0 0 (part 0 n) := by
  obtain ⟨hfinite, hle, -⟩ := within_part (Nat.zero_le n) hpos hn
  obtain ⟨hfinite₀, hval₀⟩ := val_ofCount_eq_rounded (n := 0) (by norm_num)
  obtain ⟨hfinite', hval'⟩ := val_ofCount_eq_rounded hn
  have hone : 1 ≤ val (ofCount n) := hval' ▸ held_one.1.le_rounded (by exact_mod_cast hpos)
  rw [Nat.cast_zero, rounded_zero] at hval₀
  apply within_div held_zero held_zero hfinite₀ hfinite' (by linarith) <;> simp [hval₀]

end Mesh

/-! ## Starts of spans -/

variable {p₀ h₀ h₁ p₁ : Vec3} {t : Float32}

/-- The weights of a span at its start: one, and three zeros. -/
lemma bezier_weights_zero (ht : Within 0 0 t) :
    Within 1 1 ((1 - t) * (1 - t) * (1 - t)) ∧ Within 0 0 (3 * (1 - t) * (1 - t) * t) ∧
      Within 0 0 (3 * (1 - t) * t * t) ∧ Within 0 0 (t * t * t) := by
  have hu : Within 1 1 (1 - t) := within_one_sub within_one_one ht
  have hbelow : Below 0 (1 - t) := hu.below (by norm_num) (by norm_num)
  have hthree : Below 2 (3 : Float32) := (below_iff_toNat_le (by norm_num)).mpr (by decide)
  have hsingle : Below 2 (3 * (1 - t)) := hthree.mul_single hbelow le_rfl (by norm_num)
  have hdouble : Below 2 (3 * (1 - t) * (1 - t)) := hsingle.mul_single hbelow le_rfl (by norm_num)
  exact ⟨within_one_mul (within_one_mul hu hu) hu, within_zero_mul hdouble.1 ht,
    within_zero_mul (within_zero_mul hsingle.1 ht).1 ht,
    within_zero_mul (within_zero_mul ht.1 ht).1 ht⟩

/-- A span starts at its first point. -/
lemma sameValue_bezier_zero (hp₀ : p₀.Finite) (hh₀ : h₀.Finite) (hh₁ : h₁.Finite)
    (hp₁ : p₁.Finite) (ht : Within 0 0 t) : (bezier p₀ h₀ h₁ p₁ t).sameValue p₀ = true := by
  obtain ⟨hw₀, hw₁, hw₂, hw₃⟩ := bezier_weights_zero ht
  have hcoordinate : ∀ {x₀ y₀ y₁ x₁ : Float32}, IsFinite x₀ → IsFinite y₀ → IsFinite y₁ →
      IsFinite x₁ →
      (x₀ * ((1 - t) * (1 - t) * (1 - t)) + y₀ * (3 * (1 - t) * (1 - t) * t) +
        y₁ * (3 * (1 - t) * t * t) + x₁ * (t * t * t) == x₀) = true := by
    intro x₀ y₀ y₁ x₁ hx₀ hy₀ hy₁ hx₁
    obtain ⟨hfinite, hval⟩ := val_mul_of_one hx₀ hw₀
    obtain ⟨hfinite₁, hval₁⟩ := val_add_of_zero hfinite (within_zero_mul hy₀ hw₁)
    obtain ⟨hfinite₂, hval₂⟩ := val_add_of_zero hfinite₁ (within_zero_mul hy₁ hw₂)
    obtain ⟨hfinite₃, hval₃⟩ := val_add_of_zero hfinite₂ (within_zero_mul hx₁ hw₃)
    exact beq_of_val_eq hfinite₃ hx₀ (hval₃.trans (hval₂.trans (hval₁.trans hval)))
  rw [Vec3.sameValue, Bool.and_eq_true, Bool.and_eq_true]
  exact ⟨⟨hcoordinate hp₀.x hh₀.x hh₁.x hp₁.x, hcoordinate hp₀.y hh₀.y hh₁.y hp₁.y⟩,
    hcoordinate hp₀.z hh₀.z hh₁.z hp₁.z⟩

/-- No number of the knot is infinite or a NaN. -/
def Knot.isFinite (k : Knot) : Bool :=
  k.position.isFinite && k.left.isFinite && k.right.isFinite && k.radius.isFinite

lemma Knot.isFinite_eq_true_iff {k : Knot} : k.isFinite = true ↔
    k.position.Finite ∧ k.left.Finite ∧ k.right.Finite ∧ IsFinite k.radius := by
  simp only [isFinite, Bool.and_eq_true, Vec3.isFinite_eq_true_iff, isFinite_iff, and_assoc]

namespace Sample

/-- The sample has the position and the radius of the knot, as numbers. -/
def Meets (s : Sample) (k : Knot) : Prop :=
  s.position.sameValue k.position = true ∧ (s.radius == k.radius) = true

lemma meets_self {k : Knot} (hposition : k.position.Finite) (hradius : IsFinite k.radius) :
    (⟨k.position, k.radius⟩ : Sample).Meets k := by
  have hsame : ∀ {x : Float32}, IsFinite x → (x == x) = true := fun hx => beq_of_val_eq hx hx rfl
  refine ⟨?_, hsame hradius⟩
  rw [Vec3.sameValue, Bool.and_eq_true, Bool.and_eq_true]
  exact ⟨⟨hsame hposition.x, hsame hposition.y⟩, hsame hposition.z⟩

end Sample

namespace Branch

variable {b : Branch} {k l : Knot} {resolution j : ℕ}

/-- A span starts at its first knot. -/
lemma meets_between (hk : k.isFinite = true) (hl : l.isFinite = true)
    (hrise : (l.radius - k.radius).isFinite = true) (ht : Within 0 0 t) :
    (between k l t).Meets k := by
  obtain ⟨hkp, -, hkr, hkradius⟩ := Knot.isFinite_eq_true_iff.mp hk
  obtain ⟨hlp, hll, -, -⟩ := Knot.isFinite_eq_true_iff.mp hl
  obtain ⟨hfinite, hval⟩ :=
    val_add_of_zero hkradius (within_zero_mul (isFinite_iff.mp hrise) ht)
  exact ⟨sameValue_bezier_zero hkp hkr hll hlp ht, beq_of_val_eq hfinite hkradius hval⟩

/-! ## Samples by span and step -/

/-- The samples of one span, its last knot left out. -/
def spanSamples (steps : ℕ) (span : Knot × Knot) : List Sample :=
  (List.range steps).map fun i => between span.1 span.2 (Mesh.part i steps)

lemma length_spanSamples (steps : ℕ) (span : Knot × Knot) :
    (spanSamples steps span).length = steps := by
  rw [spanSamples, List.length_map, List.length_range]

lemma sample_eq (hlast : b.knots.getLast? = some l) : b.sample resolution =
    (b.knots.zip b.knots.tail).flatMap (spanSamples (max resolution 1)) ++
      [⟨l.position, l.radius⟩] := by
  rw [sample, hlast]
  rfl

/-- A sample of a span, by the number of the span and the step in it. -/
lemma getElem?_sample (hk : b.knots[j]? = some k) (hl : b.knots[j + 1]? = some l) {i : ℕ}
    (hi : i < max resolution 1) : (b.sample resolution)[j * max resolution 1 + i]? =
      some (between k l (Mesh.part i (max resolution 1))) := by
  have hspan : (b.knots.zip b.knots.tail)[j]? = some (k, l) := by
    rw [List.getElem?_zip_eq_some, List.getElem?_tail]
    exact ⟨hk, hl⟩
  have hlast : b.knots.getLast? = some (b.knots.getLast (List.ne_nil_of_mem
      (List.mem_of_getElem? hk))) := List.getLast?_eq_some_getLast _
  have hplace : ((b.knots.zip b.knots.tail).flatMap
      (spanSamples (max resolution 1)))[j * max resolution 1 + i]? =
        some (between k l (Mesh.part i (max resolution 1))) := by
    rw [getElem?_flatMap_of_length (fun _ _ => length_spanSamples ..) hi, hspan, Option.bind_some,
      spanSamples, List.getElem?_map, List.getElem?_range hi]
    rfl
  rw [sample_eq hlast, List.getElem?_append_left (List.getElem?_eq_some_iff.mp hplace).1, hplace]

/-- The last sample is the last knot. -/
lemma getElem?_sample_last (hk : b.knots[j]? = some k) (hj : j + 1 = b.knots.length) :
    (b.sample resolution)[j * max resolution 1]? = some ⟨k.position, k.radius⟩ := by
  have hlast : b.knots.getLast? = some k := by
    rw [List.getLast?_eq_getElem?, ← hj, Nat.add_sub_cancel, hk]
  have hlength : ((b.knots.zip b.knots.tail).flatMap (spanSamples (max resolution 1))).length =
      j * max resolution 1 := by
    rw [length_flatMap_of_forall fun _ _ => length_spanSamples .., List.length_zip,
      List.length_tail, ← hj]
    simp
  rw [sample_eq hlast, List.getElem?_append_right hlength.le, hlength]
  simp

/-- **Sampling meets the knots.**  Without knots a branch has no samples.  Otherwise it has as many
as steps are taken in each span, at least one, and the last knot.  If the knots are finite and so
are the differences of the radii of neighbours, the first sample of every span, and the last sample
of all, has the position and the radius of its knot, as numbers. -/
theorem sample_of_knots (b : Branch) (resolution : ℕ) :
    (b.sample resolution).length =
      (if b.knots = [] then 0 else (b.knots.length - 1) * max resolution 1 + 1) ∧
    (resolution < 2 ^ 64 → (∀ k ∈ b.knots, k.isFinite = true) →
      (∀ span ∈ b.knots.zip b.knots.tail, (span.2.radius - span.1.radius).isFinite = true) →
      ∀ (j : ℕ) (k : Knot), b.knots[j]? = some k →
        ∃ s, (b.sample resolution)[j * max resolution 1]? = some s ∧ s.Meets k) := by
  constructor
  · split
    · rename_i hnil
      simp [sample, hnil]
    · rename_i hknots
      exact b.length_sample hknots resolution
  · intro hresolution hfinite hrises j k hk
    have hkfinite := hfinite k (List.mem_of_getElem? hk)
    have hj : j < b.knots.length := (List.getElem?_eq_some_iff.mp hk).1
    rcases Nat.lt_or_ge (j + 1) b.knots.length with hlt | hge
    · obtain ⟨l, hl⟩ : ∃ l, b.knots[j + 1]? = some l := ⟨_, List.getElem?_eq_getElem hlt⟩
      have hspan : (k, l) ∈ b.knots.zip b.knots.tail := by
        refine List.mem_of_getElem? (i := j) ?_
        rw [List.getElem?_zip_eq_some, List.getElem?_tail]
        exact ⟨hk, hl⟩
      have hrise : (l.radius - k.radius).isFinite = true := hrises (k, l) hspan
      have hsteps : 0 < max resolution 1 := by omega
      exact ⟨_, getElem?_sample hk hl hsteps, meets_between hkfinite
        (hfinite l (List.mem_of_getElem? hl)) hrise (Mesh.within_part_zero hsteps (by omega))⟩
    · obtain ⟨hposition, -, -, hradius⟩ := Knot.isFinite_eq_true_iff.mp hkfinite
      exact ⟨_, getElem?_sample_last hk (by omega), Sample.meets_self hposition hradius⟩

/-- A curve with a negative zero among its coordinates and handles at the ends of the range. -/
def strained : Branch where
  knots := [
    ⟨⟨-0, 1, 2⟩, 0.1, ⟨0, 0, 0⟩, ⟨Float32.ofBits 0x7F7FFFFF, 0, Float32.ofBits 0xFF7FFFFF⟩⟩,
    ⟨⟨0.3, 1e10, -2⟩, Float32.ofBits 0x00000001, ⟨Float32.ofBits 0xFF7FFFFF, 0, 7⟩, ⟨1, 2, 3⟩⟩]
  depth := 0
  bevel := 1

/-- In between the samples overflow, but both knots are met. -/
theorem sample_of_knots_strained :
    (strained.sample 3).length = 4 ∧
    (∃ s, (strained.sample 3)[0]? = some s ∧
      s.position.sameValue ⟨-0, 1, 2⟩ = true ∧ (s.radius == (0.1 : Float32)) = true) ∧
    ∃ s, (strained.sample 3)[3]? = some s ∧ s.position.sameValue ⟨0.3, 1e10, -2⟩ = true ∧
      (s.radius == Float32.ofBits 0x00000001) = true := by
  obtain ⟨hlength, hmeets⟩ := sample_of_knots strained 3
  have hstrained := hmeets (by norm_num) (by decide +kernel) (by decide +kernel)
  have hknots : strained.knots ≠ [] := List.cons_ne_nil _ _
  rw [if_neg hknots] at hlength
  obtain ⟨s, hs, hmeet⟩ := hstrained 0 _ rfl
  obtain ⟨s', hs', hmeet'⟩ := hstrained 1 _ rfl
  exact ⟨hlength, ⟨s, hs, hmeet⟩, s', hs', hmeet'⟩

end Branch

end Arbor
