import Arbor.Proofs.Chance.Draws
import Arbor.Proofs.Space.Rotation
import Arbor.Shape.Assembly

/-!
# Twists of leaves

The ranges that the twist of a leaf is drawn from all have a draw, so a guarded source is kept
(`exists_placeGuarded_eq`), and they are small enough for the product of the three rotations to
be finite (`boxed_twist`).
-/

namespace Arbor

open Number Chance

namespace Assembly

lemma within_tilt : Within 0 (2 ^ 0) tilt := by
  obtain ⟨hfinite, hle⟩ : Below 0 tilt := (below_iff_toNat_le (by norm_num)).mpr (by decide)
  have hsign : tilt.toBits.toNat < 2 ^ 31 := by decide
  refine ⟨hfinite, ?_, (abs_le.mp hle).2⟩
  rw [val_of_lt hfinite hsign]
  exact magnitude_nonneg _

lemma twist_of (s : Seeded) : twist (Guarded.of s) = Prod.map id Guarded.of (twist s) := by
  have htilt := Guarded.uniform_neg_of within_tilt (by norm_num)
  simp only [twist, htilt, Guarded.uniform_tau_of, Prod.map, id]

/-- The leaves of a trace in place, each with the next twist of a source, and the source after
them. -/
def placeLeavesFrom {σ : Type} [Source σ] (size : Float32) (source : σ)
    (leaves : List Turtle.Leaf) : σ × Array LeafInstance :=
  leaves.foldl (fun (source, placed) l =>
    let (t, source) := twist source
    (source, placed.push (placeLeaf size l t))) (source, #[])

lemma placeLeaves_eq (s : Settings) (leaves : List Turtle.Leaf) : placeLeaves s leaves =
    (placeLeavesFrom s.leafSize (Seeded.ofSeed (s.seed + 1)) leaves).2.toList := rfl

lemma placeLeavesFrom_of (size : Float32) (source : Seeded) (leaves : List Turtle.Leaf) :
    placeLeavesFrom size (Guarded.of source) leaves =
      Prod.map Guarded.of id (placeLeavesFrom size source leaves) := by
  unfold placeLeavesFrom
  generalize #[] = placed
  induction leaves generalizing source placed with
  | nil => rfl
  | cons l leaves ih =>
    simp only [List.foldl_cons, twist_of, Prod.map, id]
    exact ih _ _

/-- The leaves that are added to a tree, from a guarded source. -/
def placeGuarded (s : Settings) (leaves : List Turtle.Leaf) : Guarded × List LeafInstance :=
  if s.addLeaves then
    let (source, placed) := placeLeavesFrom s.leafSize (Guarded.of (.ofSeed (s.seed + 1))) leaves
    (source, placed.toList)
  else (Guarded.of (.ofSeed (s.seed + 1)), [])

lemma exists_placeGuarded_eq (s : Settings) (leaves : List Turtle.Leaf) :
    ∃ source, placeGuarded s leaves =
      (Guarded.of source, if s.addLeaves then placeLeaves s leaves else []) := by
  unfold placeGuarded
  split_ifs
  · rw [placeLeavesFrom_of, placeLeaves_eq]
    exact ⟨_, rfl⟩
  · exact ⟨_, rfl⟩

/-! ## Finite twists -/

lemma sizeBits_lt_of_abs_val_le {x : Float32} (hx : IsFinite x) (h : |val x| ≤ val tilt) :
    sizeBits x < 0x3F400000 := by
  have hsign : tilt.toBits.toNat < 2 ^ 31 := by decide
  rw [abs_val_single hx, val_of_lt within_tilt.1 hsign, magnitude_strictMono.le_iff_le] at h
  have htilt : tilt.toBits.toNat < 0x3F400000 := by decide
  exact UInt32.lt_iff_toNat_lt.mpr (h.trans_lt htilt)

lemma boxed_twist (s : Seeded) : (twist s).1.Boxed 87 := by
  have htilted : ∀ (s : Seeded) (axis : Vec3), axis.Finite →
      (Frame.ofAxisAngle axis (Source.uniform s (-tilt) tilt).1).Boxed 9 := by
    intro s axis haxis
    obtain ⟨hfinite, hle⟩ := s.abs_val_uniform_le within_tilt (by norm_num)
    have hsmall := sizeBits_lt_of_abs_val_le hfinite hle
    obtain ⟨hsine, hcosine⟩ := below_sin_cos_of_small hsmall
    exact Frame.boxed_ofAxisAngle haxis hsine hcosine (by norm_num)
  have hspun : ∀ s : Seeded,
      (Frame.ofAxisAngle .unitZ (Source.uniform s 0 tau).1).Boxed 65 := by
    intro s
    have hbelow := s.below_uniform_tau
    have hmoderate := sizeBits_lt_of_below (n := 0x42F00000) hbelow (by norm_num) (by decide)
    obtain ⟨hsine, hcosine⟩ := below_sin_cos_of_moderate hmoderate hbelow (by norm_num)
    exact Frame.boxed_ofAxisAngle Vec3.boxed_unitZ.finite hsine hcosine (by norm_num)
  unfold twist Frame.ofEuler
  dsimp only
  apply Frame.Boxed.mul (k := 76) (l := 9)
  · apply Frame.Boxed.mul (k := 65) (l := 9) (hspun _) (htilted _ _ Vec3.boxed_unitY.finite)
    · norm_num
    · norm_num
  · exact htilted _ _ Vec3.boxed_unitX.finite
  · norm_num
  · norm_num

/-- Every placed leaf is a leaf of the trace with a finite twist. -/
lemma exists_of_mem_placeLeaves {s : Settings} {leaves : List Turtle.Leaf} {l : LeafInstance}
    (h : l ∈ placeLeaves s leaves) :
    ∃ leaf ∈ leaves, ∃ t : Frame, t.Boxed 87 ∧ l = placeLeaf s.leafSize leaf t := by
  rw [placeLeaves_eq, placeLeavesFrom, Array.mem_toList_iff] at h
  suffices hplaced : l ∈ (#[] : Array LeafInstance) ∨
      ∃ leaf ∈ leaves, ∃ t : Frame, t.Boxed 87 ∧ l = placeLeaf s.leafSize leaf t by
    simpa using hplaced
  -- The leaves placed so far grow, so the claim is about all of them.
  generalize #[] = placed at h ⊢
  generalize Seeded.ofSeed (s.seed + 1) = source at h
  induction leaves generalizing source placed with
  | nil => exact .inl h
  | cons leaf leaves ih =>
    rw [List.foldl_cons] at h
    rcases ih _ _ h with hplaced | ⟨leaf', hmem, t, ht, rfl⟩
    · rcases Array.mem_push.mp hplaced with hplaced | rfl
      · exact .inl hplaced
      · exact .inr ⟨leaf, List.mem_cons_self, _, boxed_twist source, rfl⟩
    · exact .inr ⟨leaf', List.mem_cons_of_mem _ hmem, t, ht, rfl⟩

end Assembly

end Arbor
