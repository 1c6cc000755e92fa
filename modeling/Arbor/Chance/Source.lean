import Arbor.Space.Vec3

/-!
# Sources of variation

Everything random in a tree is a draw from a range.  `Source` is all that the turtle knows of
where draws come from, so a tree is a function of its recipe and of the source.  `Recorded` wraps
a source and keeps the ranges it was asked for; it answers each as the wrapped source does.
-/

namespace Arbor

open Number

/-- A state that answers a draw from `[lo, hi]` and moves on.  Each kind of variation has a draw of
its own; unless a source says otherwise it is made of draws from ranges. -/
class Source (σ : Type) where
  uniform : σ → Float32 → Float32 → Float32 × σ
  /-- A deviation of a rotation, at most `max` either way. -/
  rotationJitter : σ → Float32 → Float32 × σ := fun s max => uniform s (-max) max
  /-- A factor of a step length, at most `jitter` away from one. -/
  lengthFactor : σ → Float32 → Float32 × σ := fun s jitter =>
    let (d, s) := uniform s (-jitter) jitter
    (1 + d, s)
  /-- A yaw of a new branch, at most `spread` either way. -/
  branchSpread : σ → Float32 → Float32 × σ := fun s spread => uniform s (-spread) spread
  /-- A roll of a new branch, up to a full turn. -/
  branchRoll : σ → Float32 × σ := fun s => uniform s 0 tau
  /-- An offset of a leaf, at most `jitter` either way on each axis, drawn in the order of the
  axes. -/
  leafOffset : σ → Float32 → Vec3 × σ := fun s jitter =>
    let (x, s) := uniform s (-jitter) jitter
    let (y, s) := uniform s (-jitter) jitter
    let (z, s) := uniform s (-jitter) jitter
    (⟨x, y, z⟩, s)

/-- A source together with the ranges drawn from it so far, in order. -/
structure Recorded (σ : Type) where
  source : σ
  ranges : Array (Float32 × Float32)

namespace Recorded

/-- A source that has not been drawn from. -/
def start {σ : Type} (source : σ) : Recorded σ := ⟨source, #[]⟩

instance {σ : Type} [Source σ] : Source (Recorded σ) where
  uniform r lo hi :=
    let (x, source) := Source.uniform r.source lo hi
    (x, ⟨source, r.ranges.push (lo, hi)⟩)

end Recorded

end Arbor
