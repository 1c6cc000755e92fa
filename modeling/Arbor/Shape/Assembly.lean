import Arbor.Chance.Seeded
import Arbor.Shape.Geometry
import Arbor.Turtle.Settings
import Arbor.Turtle.Trace

/-!
# Assembly

From a trace to a geometry.  Segments that continue each other at one depth share a branch, and
each leaf of the trace becomes a blade with a random twist.
-/

namespace Arbor

open Number Chance

namespace Assembly

/-- What the assembly goes by. -/
structure Settings where
  bevelDepth : Float32
  addLeaves : Bool
  leafSize : Float32
  /-- The seed of the tree; twists are drawn from the one after it. -/
  seed : UInt64
  deriving DecidableEq

/-- The settings unless others are asked for. -/
def Settings.usual : Settings := ⟨0.05, true, 0.3, 42⟩

/-- A tube has a positive thickness, and leaves that are added have a positive size. -/
def Settings.check (s : Settings) : Except Failure Unit := do
  Check.positive .bevelDepth s.bevelDepth
  if s.addLeaves then Check.positive .leafSize s.leafSize
  else Check.nonNegative .leafSize s.leafSize

/-- How far apart two ends may be that count as one point. -/
def joint : Float32 := 1e-5

/-- Whether a segment goes on where another one ended. -/
def continues (s t : Turtle.Segment) : Bool :=
  s.depth == t.depth && s.stop.distance t.start ≤ joint

/-- The branch of segments that continue each other. -/
def branchOfRun (bevel : Float32) : List Turtle.Segment → Branch
  | [] => ⟨[], 0, bevel⟩
  | s :: rest =>
    .ofSamples (⟨s.start, s.startRadius⟩ :: (s :: rest).map fun t => ⟨t.stop, t.stopRadius⟩)
      s.depth bevel

/-- The branches of a trace: its segments, cut where one does not continue the one before it. -/
def branches (bevel : Float32) (segments : List Turtle.Segment) : List Branch :=
  (segments.splitBy continues).map (branchOfRun bevel)

/-- The largest tilt of a leaf, in radians. -/
def tilt : Float32 := 0.3

/-- A random twist of a leaf: two tilts and a spin. -/
def twist {σ : Type} [Source σ] (source : σ) : Frame × σ :=
  let (x, source) := Source.uniform source (-tilt) tilt
  let (y, source) := Source.uniform source (-tilt) tilt
  let (spin, source) := Source.uniform source 0 tau
  (.ofEuler x y spin, source)

/-- A leaf of the trace with its twist. -/
def placeLeaf (size : Float32) (l : Turtle.Leaf) (t : Frame) : LeafInstance :=
  ⟨l.jittered, t.mul l.orientation, size, l.depth⟩

/-- The leaves of a trace in place, each with the next twist of the seed. -/
def placeLeaves (s : Settings) (leaves : List Turtle.Leaf) : List LeafInstance :=
  let start : Seeded × Array LeafInstance := (.ofSeed (s.seed + 1), #[])
  let (_, placed) := leaves.foldl (fun (source, placed) l =>
    let (t, source) := twist source
    (source, placed.push (placeLeaf s.leafSize l t))) start
  placed.toList

/-- The geometry of segments and leaves. -/
def assemble (segments : List Turtle.Segment) (leaves : List Turtle.Leaf) (s : Settings) :
    Except Failure Geometry := do
  s.check
  return ⟨branches s.bevelDepth segments, if s.addLeaves then placeLeaves s leaves else []⟩

end Assembly

end Arbor
