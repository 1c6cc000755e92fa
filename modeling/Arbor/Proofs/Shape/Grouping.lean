import Arbor.Proofs.Shape.Drawing
import Arbor.Proofs.Shape.Spans

/-!
# Grouping

The branches of a trace can be gathered in one pass, with one run open at a time: a segment that
continues the run is added to it, and any other closes it and opens the next.  `Gathering` is such a
pass.  It knows of the open run only its samples and its depth, which is enough: the last sample is
where the last segment ended.  The invariant is that the samples are those of the run, so the pass
ends with the branches of the runs (`gathered_eq`), whatever floats the segments have.

The runs themselves are told by where the cuts between them are (`branches_of_runs`).
-/

namespace Arbor.Assembly

open Turtle

/-! ## One pass -/

/-- The branches that are gathered, and the samples and the depth of the run that is open. -/
structure Gathering where
  branches : List Branch
  samples : List Sample
  depth : Nat

namespace Gathering

/-- Before the first segment. -/
def start : Gathering := ⟨[], [], 0⟩

/-- Whether a segment goes on where the open run has ended. -/
def goesOn (g : Gathering) (t : Segment) : Bool :=
  g.samples.getLast?.any fun last => g.depth == t.depth && last.position.distance t.start ≤ joint

/-- Closes the open run.  It is a branch if it has a span. -/
def flush (bevel : Float32) (g : Gathering) : Gathering where
  branches := g.branches ++
    if 2 ≤ g.samples.length then [.ofSamples g.samples g.depth bevel] else []
  samples := []
  depth := g.depth

/-- Adds a segment to the open run or to a new one. -/
def add (bevel : Float32) (g : Gathering) (t : Segment) : Gathering :=
  if g.goesOn t then { g with samples := g.samples ++ [⟨t.stop, t.stopRadius⟩] }
  else ⟨(g.flush bevel).branches, [⟨t.start, t.startRadius⟩, ⟨t.stop, t.stopRadius⟩], t.depth⟩

end Gathering

open Gathering

/-- The branches that one pass over the segments gathers. -/
def gathered (bevel : Float32) (segments : List Segment) : List Branch :=
  ((segments.foldl (add bevel) start).flush bevel).branches

variable {bevel : Float32} {s t : Segment} {rest segments : List Segment}

lemma getLast?_samplesOfRun {last : Segment} (h : (s :: rest).getLast? = some last) :
    (samplesOfRun s rest).getLast? = some ⟨last.stop, last.stopRadius⟩ := by
  have hmap : ((s :: rest).map fun t => (⟨t.stop, t.stopRadius⟩ : Sample)).getLast? =
      some ⟨last.stop, last.stopRadius⟩ := by
    rw [List.getLast?_map, h, Option.map_some]
  rw [samplesOfRun, List.getLast?_cons, hmap, Option.getD_some]

lemma samplesOfRun_concat : samplesOfRun s (rest ++ [t]) =
    samplesOfRun s rest ++ [⟨t.stop, t.stopRadius⟩] := by
  simp [samplesOfRun]

/-- The samples and the depth of an open run tell whether a segment continues its last one. -/
lemma goesOn_eq {branches : List Branch} {last : Segment}
    (hrun : (s :: rest).IsChain fun s t => continues s t = true)
    (hlast : (s :: rest).getLast? = some last) :
    goesOn ⟨branches, samplesOfRun s rest, s.depth⟩ t = continues last t := by
  have hdepth := depth_eq_of_mem_run hrun (List.mem_of_getLast? hlast)
  rw [goesOn, getLast?_samplesOfRun hlast, Option.any_some, continues, hdepth]

/-- The rest of a pass with an open run gathers the branches of the run and of what follows it. -/
lemma branches_flush_foldl_add (branches : List Branch)
    (hrun : (s :: rest).IsChain fun s t => continues s t = true) :
    ((segments.foldl (add bevel) ⟨branches, samplesOfRun s rest, s.depth⟩).flush bevel).branches =
      branches ++ (((s :: rest) ++ segments).splitBy continues).map (branchOfRun bevel) := by
  induction segments generalizing branches s rest with
  | nil =>
    rw [List.append_nil, List.splitBy_of_isChain (List.cons_ne_nil s rest) hrun]
    simp [flush, samplesOfRun, branchOfRun]
  | cons t segments ih =>
    obtain ⟨last, hlast⟩ : ∃ last, (s :: rest).getLast? = some last :=
      ⟨_, List.getLast?_eq_some_getLast (List.cons_ne_nil s rest)⟩
    rw [List.foldl_cons, add, goesOn_eq hrun hlast]
    cases hcontinues : continues last t with
    | true =>
      have hlonger : (s :: (rest ++ [t])).IsChain fun s t => continues s t = true := by
        rw [← List.cons_append, List.isChain_append]
        exact ⟨hrun, .singleton t, by simpa [hlast] using hcontinues⟩
      rw [if_pos rfl, ← samplesOfRun_concat, ih branches hlonger]
      simp
    | false =>
      have hcut : ∀ x ∈ (s :: rest).getLast?, continues x t = false := by
        rw [hlast]
        rintro x ⟨⟩
        exact hcontinues
      have hclosed : (flush bevel ⟨branches, samplesOfRun s rest, s.depth⟩).branches =
          branches ++ [branchOfRun bevel (s :: rest)] := by
        simp [flush, samplesOfRun, branchOfRun]
      have hopen : [t].IsChain fun s t => continues s t = true := .singleton t
      have hnext := ih (branches ++ [branchOfRun bevel (s :: rest)]) hopen
      rw [if_neg (by simp), hclosed, List.splitBy_append_cons segments hcut,
        List.splitBy_of_isChain (List.cons_ne_nil s rest) hrun, List.map_append,
        ← List.append_assoc]
      exact hnext

/-- **One pass gathers the branches of the runs.** -/
theorem gathered_eq (bevel : Float32) (segments : List Segment) :
    gathered bevel segments = branches bevel segments := by
  cases segments with
  | nil => rfl
  | cons t segments =>
    have hfirst : add bevel start t = ⟨[], samplesOfRun t [], t.depth⟩ := rfl
    rw [gathered, List.foldl_cons, hfirst, branches_flush_foldl_add [] (.singleton t)]
    rfl

/-! ## Cuts -/

/-- One run ends and the next begins before the segment number `k`. -/
def CutBefore (runs : List (List Segment)) (k : Nat) : Prop :=
  ∃ c, 0 < c ∧ c < runs.length ∧ ((runs.map List.length).take c).sum = k

/-- The runs are cut where the spans of two segments in a row are on different branches. -/
lemma cutBefore_iff {g : Geometry} (hg : g.branches = branches bevel segments) {k : Nat}
    (hk : k + 1 < segments.length) :
    CutBefore (segments.splitBy continues) (k + 1) ↔ ¬ g.OnOneBranch k (k + 1) := by
  simp only [CutBefore, ← spansBefore_branches hg]
  constructor
  · rintro ⟨c, -, -, hc⟩ ⟨d, ⟨hle, -⟩, -, hlt⟩
    -- The cut would lie strictly between the ends of the branch at `d`.
    rcases Nat.lt_or_ge d c with hdc | hcd
    · have hmono : g.spansBefore (d + 1) ≤ g.spansBefore c := sum_take_mono _ hdc
      omega
    · have hmono : g.spansBefore c ≤ g.spansBefore d := sum_take_mono _ hcd
      omega
  · intro hnot
    obtain ⟨c, hc⟩ := exists_hasSpan hg (Nat.lt_of_succ_lt hk)
    have hend : g.spansBefore (c + 1) = k + 1 := by
      by_contra hne
      have hlt : k + 1 < g.spansBefore (c + 1) := by
        have := hc.2
        omega
      exact hnot ⟨c, hc, Nat.le_succ_of_le hc.1, hlt⟩
    refine ⟨c + 1, Nat.succ_pos c, ?_, hend⟩
    by_contra! hge
    rw [spansBefore_branches hg, List.take_of_length_le (by simpa using hge),
      sum_length_runs] at hend
    omega

/-! ## The branch of a run -/

/-- The branch has the samples of a run, its depth and a given bevel. -/
structure Follows (bevel : Float32) (run : List Segment) (b : Branch) : Prop where
  samples : ∃ s rest, run = s :: rest ∧ b.knots.map Knot.sample = samplesOfRun s rest
  depth : ∀ t ∈ run, t.depth = b.depth
  bevel : b.bevel = bevel

lemma follows_branchOfRun {run : List Segment} (h : run ∈ segments.splitBy continues) :
    Follows bevel run (branchOfRun bevel run) := by
  have hchain := List.isChain_of_mem_splitBy h
  cases run with
  | nil => exact absurd rfl (List.ne_nil_of_mem_splitBy h)
  | cons s rest =>
    exact ⟨⟨s, rest, rfl, Branch.map_sample_knots_ofSamples ..⟩,
      fun t ht => depth_eq_of_mem_run hchain ht, rfl⟩

/-- **Grouping loses and duplicates nothing.**  The branches of an assembly are gathered in one
pass.  They follow, in order, the runs of a partition of the segments into runs that are not empty,
with a cut before just those segments whose depth is not that of the segment before or whose start
is not within the joint of its end; a distance that is a NaN is not within it.  The branch of a run
goes from its start through the end of each of its segments, with their radii, and has its depth.
So no branch has fewer than two knots, there are as many spans as segments, and one knot more for
each branch. -/
theorem branches_of_runs {s : Settings} (h : s.check = .ok ()) (segments : List Segment)
    (leaves : List Leaf) :
    ∃ g runs, assemble segments leaves s = .ok g ∧ g.branches = gathered s.bevelDepth segments ∧
      runs.flatten = segments ∧ (∀ run ∈ runs, run ≠ []) ∧
      (∀ k a b, segments[k]? = some a → segments[k + 1]? = some b →
        (CutBefore runs (k + 1) ↔ a.depth ≠ b.depth ∨ ¬ a.stop.distance b.start ≤ joint)) ∧
      List.Forall₂ (Follows s.bevelDepth) runs g.branches ∧
      (∀ b ∈ g.branches, 2 ≤ b.knots.length) ∧
      (g.branches.map Branch.spanCount).sum = segments.length ∧
      g.knotCount = segments.length + g.branches.length := by
  obtain ⟨g, hassemble, hg⟩ : ∃ g, assemble segments leaves s = .ok g ∧
      g.branches = branches s.bevelDepth segments := by
    rw [assemble, h]
    exact ⟨_, rfl, rfl⟩
  have hspanned : g.Spanned := fun b hb => spanCount_pos_of_mem_branches (hg ▸ hb)
  have hspans : (g.branches.map Branch.spanCount).sum = segments.length := by
    rw [hg, sum_spanCount_branches]
  refine ⟨g, segments.splitBy continues, hassemble, by rw [gathered_eq, hg],
    List.flatten_splitBy .., fun run => List.ne_nil_of_mem_splitBy, fun k a b ha hb => ?_, ?_,
    fun b hb => ?_, hspans, ?_⟩
  · have hk : k + 1 < segments.length := (List.getElem?_eq_some_iff.mp hb).1
    rw [cutBefore_iff hg hk, onOneBranch_succ_iff hg ha hb, continues_iff, not_and_or]
  · rw [hg, branches, List.forall₂_map_right_iff]
    exact List.forall₂_same.mpr fun run hrun => follows_branchOfRun hrun
  · have hspan := hspanned b hb
    rw [Branch.spanCount] at hspan
    omega
  · rw [hspanned.knotCount_eq, Geometry.spanTotal, hspans]

/-- Four segments: the second continues the first, the third begins nowhere, and the fourth is of
another depth. -/
def tornSegments : List Segment :=
  [⟨⟨0, 0, 0⟩, ⟨0, 0, 1⟩, 1, 0.5, 0⟩, ⟨⟨0, 0, 1⟩, ⟨0, 1, 1⟩, 0.5, 0.25, 0⟩,
    ⟨⟨0, 0 / 0, 1⟩, ⟨1, 1, 1⟩, 0.25, 0.125, 0⟩, ⟨⟨1, 1, 1⟩, ⟨2, 1, 1⟩, 0.125, 0, 1⟩]

theorem branches_of_runs_torn : Settings.usual.check = .ok () ∧
    ∃ g runs, assemble tornSegments [] .usual = .ok g ∧ runs.flatten = tornSegments ∧
      ¬ CutBefore runs 1 ∧ CutBefore runs 2 ∧ CutBefore runs 3 ∧
      List.Forall₂ (Follows 0.05) runs g.branches ∧
      (g.branches.map Branch.spanCount).sum = 4 ∧ g.knotCount = 4 + g.branches.length := by
  have hcheck : Settings.usual.check = .ok () := by decide +kernel
  obtain ⟨g, runs, hassemble, -, hflatten, -, hcuts, hfollows, -, hspans, hknots⟩ :=
    branches_of_runs hcheck tornSegments []
  refine ⟨hcheck, g, runs, hassemble, hflatten, ?_, ?_, ?_, hfollows, hspans, hknots⟩
  · rw [hcuts 0 _ _ rfl rfl]
    decide +kernel
  · rw [hcuts 1 _ _ rfl rfl]
    decide +kernel
  · rw [hcuts 2 _ _ rfl rfl]
    decide +kernel

end Arbor.Assembly
