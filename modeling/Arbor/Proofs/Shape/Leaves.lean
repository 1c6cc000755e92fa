import Arbor.Proofs.Shape.Twists

/-!
# Leaves by their number

The leaves of a trace are placed one after the other, and each one goes on with the source that the
one before it has left.  Even so a leaf knows nothing of the others: a twist takes exactly three
words of the keystream, whatever the leaf is that it turns (`twist_due`), so the twist of leaf `i`
is made of the words `3 i` to `3 i + 2` (`twistAt`).  A leaf is then a function of the marker and of
its number (`leaves_of_assemble`).
-/

namespace Arbor

open Number

/-! ## Words by their place -/

namespace Chance

/-- Word `n` of the keystream of a seed. -/
def wordAt (seed : UInt64) (n : Nat) : UInt32 :=
  (block (Key.ofSeed seed) (n / 16).toUInt64)[n % 16]

/-- The number of a range that a word stands for. -/
def numberAt (lo hi : Float32) (word : UInt32) : Float32 := fraction word * rangeScale lo hi + lo

/-- The source draws from the keystream of a seed, and word `n` of it is due. -/
structure Seeded.Due (seed : UInt64) (n : Nat) (s : Seeded) : Prop where
  key : s.stream.key = Key.ofSeed seed
  position : s.stream.position = n

namespace Seeded

variable {seed : UInt64} {n : Nat} {s : Seeded}

lemma due_ofSeed (seed : UInt64) : (ofSeed seed).Due seed 0 := ⟨rfl, rfl⟩

lemma Due.word_eq (h : s.Due seed n) : s.stream.word = wordAt seed n := by
  obtain ⟨⟨key, position, current, hblock⟩⟩ := s
  obtain ⟨rfl, rfl⟩ : key = Key.ofSeed seed ∧ position = n := ⟨h.key, h.position⟩
  rw [Keystream.word, wordAt]
  simp only [hblock]

lemma Due.advance (h : s.Due seed n) : Due seed (n + 1) ⟨s.stream.advance⟩ := by
  have hnext : s.stream.advance.key = s.stream.key ∧
      s.stream.advance.position = s.stream.position + 1 := by
    unfold Keystream.advance
    split_ifs <;> exact ⟨rfl, rfl⟩
  exact ⟨hnext.1.trans h.key, hnext.2.trans (congrArg (· + 1) h.position)⟩

/-- A range that is neither empty nor too wide takes the word that is due. -/
lemma uniform_of_wide {lo hi : Float32} (hlt : ¬ hi ≤ lo) (hnan : (lo.isNaN || hi.isNaN) = false)
    (hwidth : ((hi - lo) / largestFraction).isFinite = true) (s : Seeded) :
    Source.uniform s lo hi = (numberAt lo hi s.stream.word, ⟨s.stream.advance⟩) := by
  apply uniform_eq_of_draw?
  rw [draw?, if_neg hlt, hnan, hwidth]
  rfl

end Seeded

end Chance

open Chance

namespace Assembly

open Turtle (Leaf Segment)

/-! ## Twists by their number -/

/-- Twist `i` of a tree: the draws `3 i` to `3 i + 2` of the seed after that of the tree. -/
def twistAt (seed : UInt64) (i : Nat) : Frame :=
  .ofEuler (numberAt (-tilt) tilt (wordAt (seed + 1) (3 * i)))
    (numberAt (-tilt) tilt (wordAt (seed + 1) (3 * i + 1)))
    (numberAt 0 tau (wordAt (seed + 1) (3 * i + 2)))

lemma uniform_tilt (s : Seeded) : Source.uniform s (-tilt) tilt =
    (numberAt (-tilt) tilt s.stream.word, ⟨s.stream.advance⟩) :=
  s.uniform_of_wide (by decide) (by decide) (by decide +kernel)

lemma uniform_spin (s : Seeded) :
    Source.uniform s 0 tau = (numberAt 0 tau s.stream.word, ⟨s.stream.advance⟩) :=
  s.uniform_of_wide (by decide) (by decide) (by decide +kernel)

variable {seed : UInt64}

/-- A twist is made of the next three words, and leaves the source behind them. -/
lemma twist_due {s : Seeded} {i : Nat} (h : s.Due (seed + 1) (3 * i)) :
    (twist s).1 = twistAt seed i ∧ (twist s).2.Due (seed + 1) (3 * (i + 1)) := by
  have h₁ := h.advance
  have h₂ := h₁.advance
  simp only [twist, uniform_tilt, uniform_spin]
  rw [h.word_eq, h₁.word_eq, h₂.word_eq]
  exact ⟨rfl, h₂.advance⟩

/-! ## Leaves by their number -/

/-- The leaf of a marker with the number `i`. -/
def leafAt (s : Settings) (i : Nat) (l : Leaf) : LeafInstance where
  position := l.position + l.jitter
  rotation := (twistAt s.seed i).mul l.orientation
  scale := s.leafSize
  depth := l.depth

variable {s : Settings}

lemma placeLeavesFrom_due {source : Seeded} (h : source.Due (s.seed + 1) 0) (leaves : List Leaf) :
    (placeLeavesFrom s.leafSize source leaves).2.toList = leaves.mapIdx (leafAt s) := by
  -- With `k` leaves placed, the next ones have the numbers from `k` on.
  have hfrom : ∀ (leaves : List Leaf) (k : Nat) (source : Seeded) (placed : Array LeafInstance),
      source.Due (s.seed + 1) (3 * k) →
      (leaves.foldl (fun p l => ((twist p.1).2, p.2.push (placeLeaf s.leafSize l (twist p.1).1)))
        (source, placed)).2.toList =
      placed.toList ++ leaves.mapIdx fun i => leafAt s (k + i) := by
    intro leaves
    induction leaves with
    | nil => simp
    | cons l leaves ih =>
      intro k source placed hdue
      obtain ⟨htwist, hnext⟩ := twist_due hdue
      have hleaf : placeLeaf s.leafSize l (twist source).1 = leafAt s k l := by rw [htwist]; rfl
      rw [List.foldl_cons, ih (k + 1) _ _ hnext, List.mapIdx_cons, Array.toList_push, hleaf]
      simp [Nat.add_assoc, Nat.add_comm 1]
  exact (hfrom leaves 0 source #[] h).trans (by simp)

lemma placeLeaves_eq_mapIdx (s : Settings) (leaves : List Leaf) :
    placeLeaves s leaves = leaves.mapIdx (leafAt s) := by
  rw [placeLeaves_eq, placeLeavesFrom_due (Seeded.due_ofSeed _)]

/-! ## The leaves of an assembly -/

/-- The front of a list has the same numbers as the whole of it. -/
lemma mapIdx_take {α β : Type} (f : Nat → α → β) (xs : List α) (n : Nat) :
    (xs.take n).mapIdx f = (xs.mapIdx f).take n := by
  apply List.ext_getElem?
  intro i
  rw [List.getElem?_mapIdx, List.getElem?_take, List.getElem?_take, List.getElem?_mapIdx]
  split_ifs <;> rfl

lemma assemble_eq (h : s.check = .ok ()) (segments : List Segment) (leaves : List Leaf) :
    assemble segments leaves s = .ok ⟨branches s.bevelDepth segments,
      if s.addLeaves then placeLeaves s leaves else []⟩ := by
  rw [assemble, h]
  rfl

/-- **Leaves by their number.**  An assembly with leaves has a leaf for each marker, in order: it
hangs at the position of the marker with its offset, has its depth and the size of the settings, and
its frame is that of the marker turned by the twist of its number, which knows the seed and the
number only.  So the first markers alone give the first leaves, another marker in the place of one
gives another leaf in its place and leaves the others as they are, and the branches do not depend on
the markers, on the seed or on whether there are leaves at all. -/
theorem leaves_of_assemble (h : s.check = .ok ()) (hadd : s.addLeaves = true)
    (segments : List Segment) (leaves : List Leaf) :
    ∃ g, assemble segments leaves s = .ok g ∧ g.leaves.length = leaves.length ∧
      (∀ i l, leaves[i]? = some l → ∃ leaf, g.leaves[i]? = some leaf ∧
        leaf.position = l.position + l.jitter ∧ leaf.depth = l.depth ∧ leaf.scale = s.leafSize ∧
        leaf.rotation = (twistAt s.seed i).mul l.orientation) ∧
      (∀ n, assemble segments (leaves.take n) s = .ok { g with leaves := g.leaves.take n }) ∧
      (∀ i l, assemble segments (leaves.set i l) s =
        .ok { g with leaves := g.leaves.set i (leafAt s i l) }) ∧
      ∀ (s' : Settings) (leaves' : List Leaf), s'.check = .ok () → s'.bevelDepth = s.bevelDepth →
        ∃ g', assemble segments leaves' s' = .ok g' ∧ g'.branches = g.branches := by
  have hplaced : ∀ leaves, assemble segments leaves s =
      .ok ⟨branches s.bevelDepth segments, leaves.mapIdx (leafAt s)⟩ := by
    intro leaves
    rw [assemble_eq h, if_pos hadd, placeLeaves_eq_mapIdx]
  refine ⟨_, hplaced leaves, List.length_mapIdx, fun i l hl => ?_, fun n => ?_, fun i l => ?_,
    fun s' leaves' h' hbevel => ⟨_, assemble_eq h' segments leaves', by rw [hbevel]⟩⟩
  · refine ⟨leafAt s i l, ?_, rfl, rfl, rfl, rfl⟩
    rw [List.getElem?_mapIdx, hl]
    rfl
  · rw [hplaced, mapIdx_take]
  · rw [hplaced, List.mapIdx_set]

/-- The last seed of all, whose twists are drawn from seed zero. -/
def lastSeed : Settings := { Settings.usual with seed := 0xFFFFFFFFFFFFFFFF }

/-- Two markers, the first of them at no finite point. -/
def strayMarkers : List Leaf :=
  [⟨⟨1 / 0, 0, 0⟩, .identity, ⟨0 / 0, 0, 0⟩, 2⟩, ⟨⟨1, 2, 3⟩, .identity, ⟨0.5, 0, 0⟩, 1⟩]

theorem leaves_of_assemble_last : lastSeed.check = .ok () ∧ lastSeed.addLeaves = true ∧
    ∃ g, assemble [] strayMarkers lastSeed = .ok g ∧ g.leaves.length = 2 ∧
      (∃ leaf : LeafInstance, g.leaves[1]? = some leaf ∧ leaf.position = ⟨1.5, 2, 3⟩ ∧
        leaf.depth = 1 ∧ leaf.scale = 0.3 ∧ leaf.rotation =
          (Frame.ofEuler (numberAt (-tilt) tilt (wordAt 0 3)) (numberAt (-tilt) tilt (wordAt 0 4))
            (numberAt 0 tau (wordAt 0 5))).mul .identity) ∧
      assemble [] (strayMarkers.take 1) lastSeed = .ok { g with leaves := g.leaves.take 1 } ∧
      ∃ g', assemble [] [] .usual = .ok g' ∧ g'.branches = g.branches := by
  have hcheck : lastSeed.check = .ok () := by decide +kernel
  obtain ⟨g, hassemble, hlength, hleaves, htake, -, hbranches⟩ :=
    leaves_of_assemble hcheck rfl [] strayMarkers
  obtain ⟨leaf, hleaf, hposition, hdepth, hscale, hrotation⟩ := hleaves 1 _ rfl
  have hafter : lastSeed.seed + 1 = 0 := by decide
  rw [twistAt, hafter] at hrotation
  exact ⟨hcheck, rfl, g, hassemble, hlength, ⟨leaf, hleaf, hposition.trans (by decide +kernel),
    hdepth, hscale, hrotation⟩, htake 1, hbranches .usual [] (by decide +kernel) rfl⟩

end Assembly

end Arbor
