import Arbor.Chance.Source
import Arbor.Turtle.Settings
import Arbor.Turtle.Trace

/-!
# The walk

The turtle reads a word from left to right.  A step is a function of the symbol and the state; the
walk is the fold of the steps.  All randomness is drawn from the source of the state, in the order
of the symbols.
-/

namespace Arbor.Turtle

open Number

/-- Where the turtle is and how it would grow from there. -/
structure Pose where
  position : Vec3
  orientation : Frame
  /-- The length of the next step, before variation. -/
  length : Float32
  /-- The radius at the foot of the next segment. -/
  radius : Float32
  deriving DecidableEq

/-- At the origin, upright. -/
def Pose.initial (s : Settings) : Pose := ⟨.zero, .identity, s.initialLength, s.initialRadius⟩

/-- The largest part of the step length by which tropism bends a heading, at full strength. -/
def bendPerLength : Float32 := 0.1

/-- The length of an axis below which a heading counts as aligned with the tropism. -/
def aligned : Float32 := 1e-4

/-- Bends the heading toward the direction of the tropism, not past it. -/
def Pose.bend (s : Settings) (p : Pose) : Pose :=
  if s.tropismStrength ≤ 0 then p
  else
    let direction := s.tropismDirection.normalize
    let forward := p.orientation.forward
    let axis := forward.cross direction
    if axis.length ≤ aligned then p
    else
      let turn := least (s.tropismStrength * p.length * bendPerLength) (forward.angleTo direction)
      { p with orientation := p.orientation.rotatedWorld axis turn }

/-- Rotation about a local axis; tropism follows every rotation. -/
def Pose.rotate (s : Settings) (p : Pose) (angle : Float32) (axis : Vec3) : Pose :=
  Pose.bend s { p with orientation := p.orientation.rotatedLocal axis angle }

/-- A step along the heading, after which the next one is shorter and thinner. -/
def Pose.move (s : Settings) (p : Pose) (step : Float32) : Pose :=
  { p with
    position := p.position + p.orientation.forward.scale step
    length := p.length * s.lengthDecay
    radius := p.radius * s.radiusDecay }

/-- The foot of a branch is as thin as the next segment. -/
def Pose.thin (s : Settings) (p : Pose) : Pose := { p with radius := p.radius * s.radiusDecay }

/-- The turtle on its way: its pose, the poses of the open branches, the source of variation, the
place in the word, and what it has recorded. -/
structure Walker (σ : Type) where
  pose : Pose
  stack : Array Pose
  source : σ
  index : Nat
  segments : Array Segment
  leaves : Array Leaf
  warnings : Array Warning

namespace Walker

variable {σ : Type} [Source σ]

/-- Before the first symbol. -/
def start (s : Settings) (source : σ) : Walker σ :=
  ⟨.initial s, #[], source, 0, #[], #[], #[]⟩

/-- Rotation by an angle with a random deviation. -/
@[specialize] def rotate (s : Settings) (w : Walker σ) (angle : Float32) (axis : Vec3) :
    Walker σ :=
  let (jitter, source) := Source.rotationJitter w.source s.rotationJitter
  { w with pose := w.pose.rotate s (angle + jitter) axis, source := source }

/-- A random yaw within the spread of branches. -/
@[specialize] def spread (s : Settings) (w : Walker σ) : Walker σ :=
  let (angle, source) := Source.branchSpread w.source s.branchSpread
  rotate s { w with source := source } angle .unitY

/-- A turn to the side: a random yaw, and then the turn. -/
@[specialize] def yaw (s : Settings) (w : Walker σ) (angle : Float32) : Walker σ :=
  rotate s (spread s w) angle .unitY

/-- A move, with a segment if it is drawn. -/
@[specialize] def move (s : Settings) (w : Walker σ) (draw : Bool) : Walker σ :=
  let (factor, source) := Source.lengthFactor w.source s.lengthJitter
  let step := w.pose.length * factor
  let foot := w.pose.bend s
  let pose := foot.move s step
  if draw then
    let segment := ⟨foot.position, pose.position, foot.radius, pose.radius, w.stack.size⟩
    { w with pose := pose, source := source, segments := w.segments.push segment }
  else { w with pose := pose, source := source }

/-- A random roll about the heading, if branches roll. -/
@[specialize] def roll (s : Settings) (w : Walker σ) : Walker σ :=
  if s.branchRoll then
    let (angle, source) := Source.branchRoll w.source
    rotate s { w with source := source } angle .unitZ
  else w

/-- Opens a branch: the pose is kept for its end. -/
@[specialize] def openBranch (s : Settings) (w : Walker σ) : Walker σ :=
  roll s (spread s { w with stack := w.stack.push w.pose, pose := w.pose.thin s })

/-- Closes a branch: the turtle is back where it was opened, and a leaf grows there.  Without an
open branch there is a warning and nothing else. -/
@[specialize] def closeBranch (s : Settings) (w : Walker σ) : Walker σ :=
  match w.stack.back? with
  | none => { w with warnings := w.warnings.push (.unmatchedPop w.index) }
  | some pose =>
    let stack := w.stack.pop
    let (jitter, source) := Source.leafOffset w.source s.leafJitter
    let leaf := ⟨pose.position, pose.orientation, jitter, stack.size⟩
    { w with pose := pose, stack := stack, source := source, leaves := w.leaves.push leaf }

/-- What a symbol does. -/
@[specialize] def act (s : Settings) (w : Walker σ) : Symbol → Walker σ
  | .forward => move s w true
  | .skip => move s w false
  | .turnLeft => yaw s w s.angle
  | .turnRight => yaw s w (-s.angle)
  | .pitchDown => rotate s w s.angle .unitX
  | .pitchUp => rotate s w (-s.angle) .unitX
  | .rollLeft => rotate s w s.angle .unitZ
  | .rollRight => rotate s w (-s.angle) .unitZ
  | .turnAround => rotate s w pi .unitY
  | .push => openBranch s w
  | .pop => closeBranch s w
  | .letter _ => w

/-- One symbol read. -/
@[specialize] def step (s : Settings) (w : Walker σ) (symbol : Symbol) : Walker σ :=
  let w := act s w symbol
  { w with index := w.index + 1 }

/-- A word read. -/
@[specialize] def run (s : Settings) (w : Walker σ) (word : Word) : Walker σ :=
  word.foldl (step s) w

/-- The record so far, with a warning about branches that are still open. -/
def trace (w : Walker σ) : Trace where
  segments := w.segments.toList
  leaves := w.leaves.toList
  warnings :=
    w.warnings.toList ++ if w.stack.isEmpty then [] else [.unclosedBranches w.stack.size]

end Walker

/-- The trace of a word, and the source after it. -/
@[specialize] def walk {σ : Type} [Source σ] (s : Settings) (word : Word) (source : σ) :
    Except Failure (Trace × σ) := do
  s.check
  let w := (Walker.start s source).run s word
  return (w.trace, w.source)

end Arbor.Turtle
