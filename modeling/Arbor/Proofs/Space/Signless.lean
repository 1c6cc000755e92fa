import Arbor.Proofs.Number.Signless
import Arbor.Space.Vec3

/-!
# Vectors without the signs of zeros

Vectors match, or are opposite, if their coordinates do.  Opposite vectors have the same squares, so
they have the same length, and they are normalized, or left alone, alike (`Opposed.normalize`).  To
go back along a vector is to go on along its opposite (`Opposed.sub_matches_add`).
-/

namespace Arbor

open Number

namespace Vec3

/-- Coordinates that are the same numbers. -/
structure Matches (a b : Vec3) : Prop where
  x : Number.Matches a.x b.x
  y : Number.Matches a.y b.y
  z : Number.Matches a.z b.z

/-- Coordinates that are opposite numbers. -/
structure Opposed (a b : Vec3) : Prop where
  x : Number.Opposed a.x b.x
  y : Number.Opposed a.y b.y
  z : Number.Opposed a.z b.z

variable {a b p p' : Vec3} {s s' : Float32}

protected lemma Matches.symm (h : a.Matches b) : b.Matches a := ⟨h.x.symm, h.y.symm, h.z.symm⟩

lemma opposed_sub (a b : Vec3) : (a - b).Opposed (b - a) :=
  ⟨Number.opposed_sub _ _, Number.opposed_sub _ _, Number.opposed_sub _ _⟩

lemma opposed_zero : zero.Opposed zero := ⟨rfl, rfl, rfl⟩

lemma Opposed.scale (h : a.Opposed b) (hs : Number.Matches s s') :
    (a.scale s).Opposed (b.scale s') :=
  ⟨h.x.mul hs, h.y.mul hs, h.z.mul hs⟩

/-- Opposite vectors have the same length. -/
lemma Opposed.length (h : a.Opposed b) : Number.Matches a.length b.length :=
  ((h.x.mul_self.add h.y.mul_self).add h.z.mul_self).sqrt

lemma Opposed.normalize (h : a.Opposed b) : a.normalize.Opposed b.normalize := by
  unfold Vec3.normalize
  by_cases hpos : 0 < a.length
  · rw [if_pos hpos, if_pos (h.length.zero_lt.mp hpos)]
    exact h.scale (h.length.div_of_pos hpos 1)
  · rw [if_neg hpos, if_neg (mt h.length.zero_lt.mpr hpos)]
    exact h

/-- Back along a vector is on along its opposite. -/
lemma Opposed.sub_matches_add (p : Vec3) (h : a.Opposed b) : (p - a).Matches (p + b) :=
  ⟨h.x.sub_matches_add (.refl _), h.y.sub_matches_add (.refl _), h.z.sub_matches_add (.refl _)⟩

end Vec3

end Arbor
