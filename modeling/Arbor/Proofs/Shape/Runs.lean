import Arbor.Shape.Assembly
import Mathlib.Algebra.Order.Ring.Nat
import Mathlib.Data.List.SplitBy

/-!
# Runs of segments

The branches of a trace are the runs into which its segments are cut.  No segment is lost or in two
runs, and no run is empty, whatever the segments are: the comparison of their ends only decides
where the cuts are.  The branch of a run has one span for each segment of it, so the spans of all
branches are as many as the segments (`sum_spanCount_branches`).
-/

namespace Arbor

lemma Handles.length_auto (knots : List Vec3) : (auto knots).length = knots.length := by
  cases knots with
  | nil => rfl
  | cons p knots =>
    simp [auto]

lemma Branch.length_knots_ofSamples (samples : List Sample) (depth : Nat) (bevel : Float32) :
    (ofSamples samples depth bevel).knots.length = samples.length := by
  rw [ofSamples, List.length_map, List.length_zip, Handles.length_auto, List.length_map,
    Nat.min_self]

namespace Assembly

lemma continues_iff {s t : Turtle.Segment} :
    continues s t = true ↔ s.depth = t.depth ∧ s.stop.distance t.start ≤ joint := by
  rw [continues, Bool.and_eq_true, beq_iff_eq, decide_eq_true_iff]

variable (bevel : Float32) (segments : List Turtle.Segment)

/-- The branch of a run has a span for each segment. -/
lemma spanCount_branchOfRun (run : List Turtle.Segment) :
    (branchOfRun bevel run).spanCount = run.length := by
  cases run with
  | nil => rfl
  | cons s rest =>
    rw [branchOfRun, Branch.spanCount, Branch.length_knots_ofSamples, List.length_cons,
      List.length_map, Nat.add_sub_cancel]

/-- The segments of the runs are all segments, in order. -/
lemma sum_length_runs : ((segments.splitBy continues).map List.length).sum = segments.length := by
  rw [← List.length_flatten, List.flatten_splitBy]

lemma sum_spanCount_branches :
    ((branches bevel segments).map Branch.spanCount).sum = segments.length := by
  have hspans : Branch.spanCount ∘ branchOfRun bevel = List.length :=
    funext (spanCount_branchOfRun bevel)
  rw [branches, List.map_map, hspans, sum_length_runs]

variable {bevel segments}

lemma spanCount_pos_of_mem_branches {b : Branch} (h : b ∈ branches bevel segments) :
    0 < b.spanCount := by
  obtain ⟨run, hrun, rfl⟩ := List.mem_map.mp h
  rw [spanCount_branchOfRun]
  exact List.length_pos_of_ne_nil (List.ne_nil_of_mem_splitBy hrun)

/-! ## Leaves -/

variable {s : Settings} {leaves : List Turtle.Leaf}

/-- Every leaf of the trace is placed once. -/
lemma length_placeLeaves : (placeLeaves s leaves).length = leaves.length := by
  have hfold : ∀ place : Chance.Seeded × Array LeafInstance → Turtle.Leaf → _,
      (∀ start l, (place start l).2.size = start.2.size + 1) →
        ∀ start, (leaves.foldl place start).2.size = start.2.size + leaves.length := by
    intro place hplace
    induction leaves with
    | nil => intro start; rfl
    | cons l leaves ih =>
      intro start
      rw [List.foldl_cons, ih, hplace, List.length_cons, Nat.add_right_comm, Nat.add_assoc]
  exact (hfold _ (fun _ _ => Array.size_push ..) _).trans (Nat.zero_add _)

end Assembly

end Arbor
