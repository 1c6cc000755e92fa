import Arbor.Failure
import Arbor.Space.Frame

/-!
# Traces

What a walk leaves behind: the segments it drew, the leaves where branches closed, and warnings
about brackets without a partner.
-/

namespace Arbor.Turtle

/-- A drawn move. -/
structure Segment where
  start : Vec3
  stop : Vec3
  startRadius : Float32
  stopRadius : Float32
  /-- The number of open branches. -/
  depth : Nat
  deriving DecidableEq

/-- The distance between the ends. -/
def Segment.length (s : Segment) : Float32 := s.start.distance s.stop

/-- The place of a leaf: the pose at which a branch was opened that has now closed. -/
structure Leaf where
  position : Vec3
  orientation : Frame
  jitter : Vec3
  /-- The number of branches still open. -/
  depth : Nat
  deriving DecidableEq

/-- The position with its random offset. -/
def Leaf.jittered (l : Leaf) : Vec3 := l.position + l.jitter

/-- A bracket without a partner. -/
inductive Warning where
  /-- A closing bracket, by its place in the word. -/
  | unmatchedPop (index : Nat)
  /-- The number of branches open at the end of the word. -/
  | unclosedBranches (depth : Nat)
  deriving DecidableEq

/-- The record of a walk, each part in the order of the word. -/
structure Trace where
  segments : List Segment
  leaves : List Leaf
  warnings : List Warning
  deriving DecidableEq

namespace Trace

/-- Whether every bracket has its partner. -/
def isBalanced (t : Trace) : Bool := t.warnings.isEmpty

/-- The number of closing brackets without a partner. -/
def unmatchedPops (t : Trace) : Nat :=
  t.warnings.countP fun | .unmatchedPop _ => true | .unclosedBranches _ => false

/-- The number of branches left open. -/
def unclosedPushes (t : Trace) : Nat :=
  t.warnings.foldl (fun n w => match w with
    | .unmatchedPop _ => n
    | .unclosedBranches depth => n + depth) 0

/-- Turns warnings into a failure. -/
def ensureBalanced (t : Trace) : Except Failure Unit :=
  if t.unmatchedPops = 0 ∧ t.unclosedPushes = 0 then .ok ()
  else .error (.unbalanced t.unmatchedPops t.unclosedPushes)

/-- The depth of the deepest segment, zero without one. -/
def maxDepth (t : Trace) : Nat := t.segments.foldl (fun d s => max d s.depth) 0

end Trace

end Arbor.Turtle
