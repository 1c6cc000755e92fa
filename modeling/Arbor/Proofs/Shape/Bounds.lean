import Arbor.Proofs.Number.Order
import Arbor.Proofs.Space.Signless
import Arbor.Shape.Geometry

/-!
# Tight boxes

The box of a geometry is folded over the places of its knots and leaves, and on each side of each
axis that is a fold over coordinates (`coordinate_low_foldl`, `coordinate_high_foldl`).  So the box
holds every place, and each of its six numbers is a coordinate of a place (`tight_foldl`).  There is
but one such box, up to the signs of zeros (`Box.Tight.unique`), whatever the order of the places.
-/

namespace Arbor

open Number

/-- An axis of the world. -/
inductive Axis
  | x
  | y
  | z
  deriving DecidableEq

namespace Vec3

/-- The coordinate along an axis. -/
def coordinate (v : Vec3) : Axis → Float32
  | .x => v.x
  | .y => v.y
  | .z => v.z

/-- No coordinate is a NaN. -/
def Proper (v : Vec3) : Prop := ∀ a, (v.coordinate a).isNaN = false

lemma matches_of_coordinate {v w : Vec3}
    (h : ∀ a, Number.Matches (v.coordinate a) (w.coordinate a)) : v.Matches w :=
  ⟨h .x, h .y, h .z⟩

end Vec3

namespace Box

/-- Corners that are the same but for the signs of zeros. -/
structure Matches (b c : Box) : Prop where
  low : b.low.Matches c.low
  high : b.high.Matches c.high

/-- A box that holds some places and is as small as it can be: on each axis they lie between its
sides, and each side goes through one of them. -/
structure Tight (b : Box) (P : Vec3 → Prop) : Prop where
  low_le : ∀ p, P p → ∀ a, b.low.coordinate a ≤ p.coordinate a
  le_high : ∀ p, P p → ∀ a, p.coordinate a ≤ b.high.coordinate a
  exists_low : ∀ a, ∃ p, P p ∧ p.coordinate a = b.low.coordinate a
  exists_high : ∀ a, ∃ p, P p ∧ p.coordinate a = b.high.coordinate a

variable {b c : Box} {P : Vec3 → Prop}

/-- No other box holds the places as tightly. -/
lemma Tight.unique (hP : ∀ p, P p → p.Proper) (hb : b.Tight P) (hc : c.Tight P) : b.Matches c := by
  have hlow : ∀ a, Number.Matches (b.low.coordinate a) (c.low.coordinate a) := fun a => by
    obtain ⟨p, hp, hpb⟩ := hb.exists_low a
    obtain ⟨q, hq, hqc⟩ := hc.exists_low a
    have hle := hb.low_le q hq a
    have hge := hc.low_le p hp a
    rw [hqc] at hle
    rw [hpb] at hge
    exact matches_of_le_of_le (hpb ▸ hP p hp a) (hqc ▸ hP q hq a) hle hge
  have hhigh : ∀ a, Number.Matches (b.high.coordinate a) (c.high.coordinate a) := fun a => by
    obtain ⟨p, hp, hpb⟩ := hb.exists_high a
    obtain ⟨q, hq, hqc⟩ := hc.exists_high a
    have hle := hc.le_high p hp a
    have hge := hb.le_high q hq a
    rw [hpb] at hle
    rw [hqc] at hge
    exact matches_of_le_of_le (hpb ▸ hP p hp a) (hqc ▸ hP q hq a) hle hge
  exact ⟨Vec3.matches_of_coordinate hlow, Vec3.matches_of_coordinate hhigh⟩

/-! ## The fold -/

/-- The lower side on an axis is folded over the coordinates on that axis. -/
lemma coordinate_low_foldl (a : Axis) (ps : List Vec3) (b : Box) :
    (ps.foldl Box.include b).low.coordinate a =
      (ps.map fun p => p.coordinate a).foldl least (b.low.coordinate a) := by
  induction ps generalizing b with
  | nil => rfl
  | cons p ps ih =>
    rw [List.foldl_cons, ih, List.map_cons, List.foldl_cons]
    cases a <;> rfl

lemma coordinate_high_foldl (a : Axis) (ps : List Vec3) (b : Box) :
    (ps.foldl Box.include b).high.coordinate a =
      (ps.map fun p => p.coordinate a).foldl greatest (b.high.coordinate a) := by
  induction ps generalizing b with
  | nil => rfl
  | cons p ps ih =>
    rw [List.foldl_cons, ih, List.map_cons, List.foldl_cons]
    cases a <;> rfl

/-- What the coordinates of places are folded to is a coordinate of one of them, and no other one
comes before it. -/
lemma foldl_coordinate {α : Type} [Preorder α] {rank : Float32 → α}
    {pick : Float32 → Float32 → Float32} (hpick : Picks rank pick) {p : Vec3} {ps : List Vec3}
    (hps : ∀ q ∈ p :: ps, q.Proper) (a : Axis) :
    (∃ q ∈ p :: ps, q.coordinate a =
      (ps.map fun q => q.coordinate a).foldl pick (p.coordinate a)) ∧
    ∀ q ∈ p :: ps, rank ((ps.map fun q => q.coordinate a).foldl pick (p.coordinate a)) ≤
      rank (q.coordinate a) := by
  have hmap : p.coordinate a :: ps.map (fun q => q.coordinate a) =
      (p :: ps).map fun q => q.coordinate a := rfl
  have hproper : ∀ x ∈ p.coordinate a :: ps.map (fun q => q.coordinate a), x.isNaN = false := by
    rw [hmap]
    intro x hx
    obtain ⟨q, hq, rfl⟩ := List.mem_map.mp hx
    exact hps q hq a
  refine ⟨?_, fun q hq => hpick.foldl_le _ hproper _ ?_⟩
  · have hmem := hpick.foldl_mem (ps.map fun q => q.coordinate a) (p.coordinate a)
    rw [hmap] at hmem
    exact List.mem_map.mp hmem
  · rw [hmap]
    exact List.mem_map_of_mem hq

/-- A box that is grown from one place to hold others is tight. -/
lemma tight_foldl {p : Vec3} {ps : List Vec3} (hps : ∀ q ∈ p :: ps, q.Proper) :
    (ps.foldl Box.include ⟨p, p⟩).Tight (· ∈ p :: ps) := by
  have hlow := foldl_coordinate picks_least hps
  have hhigh := foldl_coordinate picks_greatest hps
  refine ⟨fun q hq a => ?_, fun q hq a => ?_, fun a => ?_, fun a => ?_⟩
  · obtain ⟨⟨r, hr, hattained⟩, hle⟩ := hlow a
    rw [coordinate_low_foldl]
    exact (le_iff_extended_le (hattained ▸ hps r hr a) (hps q hq a)).mpr (hle q hq)
  · obtain ⟨⟨r, hr, hattained⟩, hle⟩ := hhigh a
    rw [coordinate_high_foldl]
    exact (le_iff_extended_le (hps q hq a) (hattained ▸ hps r hr a)).mpr (hle q hq)
  · rw [coordinate_low_foldl]
    exact (hlow a).1
  · rw [coordinate_high_foldl]
    exact (hhigh a).1

end Box

namespace Geometry

/-- A knot or a leaf is at a place. -/
def HasPlace (g : Geometry) (p : Vec3) : Prop :=
  (∃ c ∈ g.branches, ∃ k ∈ c.knots, k.position = p) ∨ ∃ l ∈ g.leaves, l.position = p

/-- The same knots and leaves in another order: the knots of each branch, the branches and the
leaves may be moved about. -/
def Reordered (g h : Geometry) : Prop :=
  (∃ bs, List.Forall₂ (fun b c : Branch => b.knots.Perm c.knots) g.branches bs ∧
    bs.Perm h.branches) ∧ g.leaves.Perm h.leaves

variable {g h : Geometry}

lemma mem_positions_iff {p : Vec3} : p ∈ g.positions ↔ g.HasPlace p := by
  simp only [positions, HasPlace, List.mem_append, List.mem_flatMap, List.mem_map]

/-- Branches without knots do not count. -/
lemma positions_eq_nil_iff :
    g.positions = [] ↔ (∀ c ∈ g.branches, c.knots = []) ∧ g.leaves = [] := by
  simp only [positions, List.append_eq_nil_iff, List.flatMap_eq_nil_iff, List.map_eq_nil_iff]

lemma bounds_eq_none_iff : g.bounds = none ↔ g.positions = [] := by
  rw [bounds]
  cases g.positions <;> simp

lemma bounds_eq_none_iff_forall : g.bounds = none ↔ ∀ p, ¬ g.HasPlace p := by
  simp only [bounds_eq_none_iff, List.eq_nil_iff_forall_not_mem, mem_positions_iff]

lemma tight_bounds (hg : ∀ p, g.HasPlace p → p.Proper) {b : Box} (hb : g.bounds = some b) :
    b.Tight g.HasPlace := by
  have hplace : (· ∈ g.positions) = g.HasPlace := funext fun p => propext mem_positions_iff
  rw [← hplace] at hg ⊢
  rw [bounds] at hb
  cases hps : g.positions with
  | nil =>
    rw [hps] at hb
    cases hb
  | cons p ps =>
    rw [hps] at hb hg
    cases hb
    exact Box.tight_foldl hg

/-- The box is made of the set of the places. -/
lemma rel_bounds (hg : ∀ p, g.HasPlace p → p.Proper) (hgh : g.HasPlace = h.HasPlace) :
    Option.Rel Box.Matches g.bounds h.bounds := by
  have hnone : g.bounds = none ↔ h.bounds = none := by
    rw [bounds_eq_none_iff_forall, bounds_eq_none_iff_forall, hgh]
  cases hb : g.bounds with
  | none =>
    rw [hnone.mp hb]
    exact .none
  | some b =>
    cases hc : h.bounds with
    | none =>
      rw [hnone.mpr hc] at hb
      cases hb
    | some c =>
      have htight : c.Tight h.HasPlace := tight_bounds (hgh ▸ hg) hc
      exact .some ((tight_bounds hg hb).unique hg (hgh ▸ htight))

/-- The knots of each branch in another order. -/
lemma exists_knot_iff_of_forall₂ {bs cs : List Branch}
    (hperm : List.Forall₂ (fun b c : Branch => b.knots.Perm c.knots) bs cs) (p : Vec3) :
    (∃ b ∈ bs, ∃ k ∈ b.knots, k.position = p) ↔ ∃ c ∈ cs, ∃ k ∈ c.knots, k.position = p := by
  induction hperm with
  | nil => rfl
  | cons hfirst _ ih => simp only [List.exists_mem_cons_iff, ih, hfirst.mem_iff]

lemma Reordered.hasPlace_eq (hgh : g.Reordered h) : g.HasPlace = h.HasPlace := by
  obtain ⟨⟨bs, hknots, hbranches⟩, hleaves⟩ := hgh
  funext p
  simp only [HasPlace, exists_knot_iff_of_forall₂ hknots, hbranches.mem_iff, hleaves.mem_iff]

/-- **The box is tight.**  There is no box if and only if there are no knots and no leaves.  If no
place has a NaN among its coordinates, the box holds all places, each of its six numbers is a
coordinate of one of them, and another order of the branches, of their knots or of the leaves
changes at most the signs of zeros. -/
theorem bounds_tight (g : Geometry) :
    (g.bounds = none ↔ (∀ c ∈ g.branches, c.knots = []) ∧ g.leaves = []) ∧
    ((∀ p, g.HasPlace p → p.Proper) →
      (∀ b, g.bounds = some b → b.Tight g.HasPlace) ∧
        ∀ h, g.Reordered h → Option.Rel Box.Matches g.bounds h.bounds) :=
  ⟨bounds_eq_none_iff.trans positions_eq_nil_iff, fun hg =>
    ⟨fun _ hb => tight_bounds hg hb, fun _ hgh => rel_bounds hg hgh.hasPlace_eq⟩⟩

/-- A branch with knots at given places. -/
def through (ps : List Vec3) : Branch := ⟨ps.map fun p => ⟨p, 1, p, p⟩, 0, 1⟩

/-- A branch without knots, one with zeros of both signs, and a leaf that is infinitely far off. -/
def scattered : Geometry :=
  ⟨[through [], through [⟨0, 1, 2⟩, ⟨-0.0, 3, 1⟩]], [⟨⟨0, 2, -1 / 0⟩, .identity, 1, 0⟩]⟩

/-- The same from the other end. -/
def scatteredBack : Geometry :=
  ⟨[through [⟨-0.0, 3, 1⟩, ⟨0, 1, 2⟩], through []], [⟨⟨0, 2, -1 / 0⟩, .identity, 1, 0⟩]⟩

theorem bounds_tight_scattered : (∀ p, scattered.HasPlace p → p.Proper) ∧
    scattered.Reordered scatteredBack ∧ scattered.bounds ≠ scatteredBack.bounds ∧
    (∃ b, scattered.bounds = some b ∧ b.Tight scattered.HasPlace) ∧
    Option.Rel Box.Matches scattered.bounds scatteredBack.bounds := by
  have hplaces : ∀ p ∈ scattered.positions, p.x.isNaN = false ∧ p.y.isNaN = false ∧
      p.z.isNaN = false := by
    decide +kernel
  have hproper : ∀ p, scattered.HasPlace p → p.Proper := fun p hp a => by
    obtain ⟨hx, hy, hz⟩ := hplaces p (mem_positions_iff.mpr hp)
    cases a
    exacts [hx, hy, hz]
  have hreordered : scattered.Reordered scatteredBack :=
    ⟨⟨[through [], through [⟨-0.0, 3, 1⟩, ⟨0, 1, 2⟩]],
      .cons .rfl (.cons (.swap ..) .nil), .swap ..⟩, .rfl⟩
  have hdiffer : scattered.bounds ≠ scatteredBack.bounds := by decide +kernel
  have hsome : scattered.bounds.isSome = true := by decide +kernel
  obtain ⟨b, hb⟩ := Option.isSome_iff_exists.mp hsome
  obtain ⟨htight, hrel⟩ := (bounds_tight scattered).2 hproper
  exact ⟨hproper, hreordered, hdiffer, ⟨b, hb, htight b hb⟩, hrel _ hreordered⟩

end Geometry

end Arbor
