import Arbor.Proofs.Shape.Runs
import Arbor.Shape.Geometry
import Mathlib.Algebra.BigOperators.Group.List.Basic

/-!
# Spans of the branches

The spans of all branches are counted through in order, and the span number `k` is the one of the
segment number `k`: it ends where the segment ends, and it begins where the segment begins or at the
end of the segment before it, which counts as the same point (`drawn_branches`).  Two segments in a
row are on one branch exactly if the second continues the first (`onOneBranch_succ_iff`).
-/

namespace Arbor

/-- The place and the radius of a knot. -/
def Knot.sample (k : Knot) : Sample := ⟨k.position, k.radius⟩

/-- The knots of a branch are where its samples are. -/
lemma Branch.map_sample_knots_ofSamples (samples : List Sample) (depth : Nat) (bevel : Float32) :
    (ofSamples samples depth bevel).knots.map Knot.sample = samples := by
  have hlength : samples.length ≤ (Handles.auto (samples.map Sample.position)).length := by
    rw [Handles.length_auto, List.length_map]
  rw [ofSamples, List.map_map]
  exact List.map_snd_zip hlength

/-- A segment is drawn between two knots: the second is its stop, and the first is its start or a
point that counts as the same. -/
structure Turtle.Segment.DrawnBetween (s : Turtle.Segment) (a z : Knot) : Prop where
  stop : z.sample = ⟨s.stop, s.stopRadius⟩
  start : a.sample = ⟨s.start, s.startRadius⟩ ∨ a.position.distance s.start ≤ Assembly.joint

/-! ## Counting spans -/

lemma sum_take_mono (ns : List Nat) {c d : Nat} (h : c ≤ d) :
    (ns.take c).sum ≤ (ns.take d).sum := by
  rw [← Nat.add_sub_of_le h, List.take_add, List.sum_append]
  exact Nat.le_add_right ..

/-- A number below a sum falls into one of the summands. -/
lemma exists_sum_take_le (ns : List Nat) {k : Nat} (h : k < ns.sum) :
    ∃ c, (ns.take c).sum ≤ k ∧ k < (ns.take (c + 1)).sum := by
  induction ns generalizing k with
  | nil => simp at h
  | cons n ns ih =>
    by_cases hk : k < n
    · exact ⟨0, by simp, by simpa using hk⟩
    · rw [List.sum_cons] at h
      obtain ⟨c, hle, hlt⟩ := ih (k := k - n) (by omega)
      refine ⟨c + 1, ?_, ?_⟩ <;> rw [List.take_succ_cons, List.sum_cons] <;> omega

namespace Geometry

variable (g : Geometry)

/-- The number of spans of the branches before the one at `c`. -/
def spansBefore (c : Nat) : Nat := ((g.branches.map Branch.spanCount).take c).sum

/-- The span number `k` belongs to the branch at `c`. -/
def HasSpan (c k : Nat) : Prop := g.spansBefore c ≤ k ∧ k < g.spansBefore (c + 1)

instance (c k : Nat) : Decidable (g.HasSpan c k) := inferInstanceAs (Decidable (_ ∧ _))

/-- The span number `k` is on a branch of the depth of a segment and draws it. -/
def Draws (k : Nat) (s : Turtle.Segment) : Prop :=
  ∃ c b m a z, g.branches[c]? = some b ∧ k = g.spansBefore c + m ∧
    b.knots[m]? = some a ∧ b.knots[m + 1]? = some z ∧ b.depth = s.depth ∧ s.DrawnBetween a z

/-- The spans number `k` and `l` belong to one branch. -/
def OnOneBranch (k l : Nat) : Prop := ∃ c, g.HasSpan c k ∧ g.HasSpan c l

variable {g}

/-- A span belongs to one branch. -/
lemma HasSpan.unique {c d k : Nat} (h : g.HasSpan c k) (h' : g.HasSpan d k) : c = d := by
  have hle : ∀ {c d}, g.HasSpan c k → g.HasSpan d k → c ≤ d := by
    intro c d h h'
    by_contra! hlt
    have hmono := sum_take_mono (g.branches.map Branch.spanCount) (show d + 1 ≤ c from hlt)
    exact lt_irrefl k (h'.2.trans_le (hmono.trans h.1))
  exact le_antisymm (hle h h') (hle h' h)

lemma HasSpan.not_onOneBranch {c d k l : Nat} (h : g.HasSpan c k) (h' : g.HasSpan d l)
    (hcd : c ≠ d) : ¬ g.OnOneBranch k l :=
  fun ⟨_, hk, hl⟩ => hcd ((h.unique hk).trans (hl.unique h'))

/-- The spans of a branch follow each other. -/
lemma OnOneBranch.split {k l m : Nat} (h : g.OnOneBranch k m) (hkl : k ≤ l) (hlm : l ≤ m) :
    g.OnOneBranch k l ∧ g.OnOneBranch l m := by
  obtain ⟨c, hk, hm⟩ := h
  have hl : g.HasSpan c l := ⟨hk.1.trans hkl, hlm.trans_lt hm.2⟩
  exact ⟨⟨c, hk, hl⟩, c, hl, hm⟩

lemma spansBefore_succ {c : Nat} {b : Branch} (hb : g.branches[c]? = some b) :
    g.spansBefore (c + 1) = g.spansBefore c + b.spanCount := by
  obtain ⟨hc, rfl⟩ := List.getElem?_eq_some_iff.mp hb
  rw [spansBefore, spansBefore, List.sum_take_succ _ _ (by simpa using hc), List.getElem_map]

lemma hasSpan_iff {c k : Nat} : g.HasSpan c k ↔
    ∃ b m, g.branches[c]? = some b ∧ k = g.spansBefore c + m ∧ m < b.spanCount := by
  constructor
  · rintro ⟨hle, hlt⟩
    have hc : c < g.branches.length := by
      by_contra! hge
      rw [spansBefore, List.take_of_length_le (by simp; omega)] at hlt
      rw [spansBefore, List.take_of_length_le (by simpa using hge)] at hle
      omega
    have hb : g.branches[c]? = some g.branches[c] := List.getElem?_eq_getElem hc
    rw [spansBefore_succ hb] at hlt
    exact ⟨_, k - g.spansBefore c, hb, by omega, by omega⟩
  · rintro ⟨b, m, hb, rfl, hm⟩
    refine ⟨Nat.le_add_right .., ?_⟩
    rw [spansBefore_succ hb]
    omega

end Geometry

namespace Assembly

variable {bevel : Float32} {segments run : List Turtle.Segment} {g : Geometry}
variable {c k m : Nat} {s t : Turtle.Segment}

/-! ## Segments by their runs -/

section Assembled

variable (hg : g.branches = branches bevel segments)

include hg

lemma spansBefore_branches : g.spansBefore c =
    (((segments.splitBy continues).map List.length).take c).sum := by
  have hspans : Branch.spanCount ∘ branchOfRun bevel = List.length :=
    funext (spanCount_branchOfRun bevel)
  rw [Geometry.spansBefore, hg, branches, List.map_map, hspans]

lemma branches_getElem? (hrun : (segments.splitBy continues)[c]? = some run) :
    g.branches[c]? = some (branchOfRun bevel run) := by
  rw [hg, branches, List.getElem?_map, hrun, Option.map_some]

/-- A segment by the run it is in and the number of spans before that. -/
lemma segments_getElem?_spansBefore
    (hrun : (segments.splitBy continues)[c]? = some run) (hm : m < run.length) :
    segments[g.spansBefore c + m]? = run[m]? := by
  obtain ⟨hc, rfl⟩ := List.getElem?_eq_some_iff.mp hrun
  have hdrop := List.drop_sum_flatten (segments.splitBy continues) c
  rw [List.flatten_splitBy, List.drop_eq_getElem_cons hc, List.flatten_cons] at hdrop
  rw [spansBefore_branches hg, ← List.getElem?_drop, hdrop, List.getElem?_append_left hm]

/-- The spans of a branch are those of the segments of its run. -/
lemma hasSpan_branches_iff : g.HasSpan c k ↔
    ∃ run m, (segments.splitBy continues)[c]? = some run ∧
      k = g.spansBefore c + m ∧ m < run.length := by
  rw [Geometry.hasSpan_iff]
  constructor
  · rintro ⟨b, m, hb, hk, hm⟩
    rw [hg, branches, List.getElem?_map, Option.map_eq_some_iff] at hb
    obtain ⟨run, hrun, rfl⟩ := hb
    rw [spanCount_branchOfRun] at hm
    exact ⟨run, m, hrun, hk, hm⟩
  · rintro ⟨run, m, hrun, hk, hm⟩
    refine ⟨_, m, branches_getElem? hg hrun, hk, ?_⟩
    rwa [spanCount_branchOfRun]

lemma exists_hasSpan (h : k < segments.length) :
    ∃ c, g.HasSpan c k := by
  rw [← sum_spanCount_branches bevel segments, ← hg] at h
  exact exists_sum_take_le _ h

/-- The last segment of a run is not continued by the one behind it. -/
lemma not_continues_of_cut (hrun : (segments.splitBy continues)[c]? = some run)
    (hm : m + 1 = run.length) (hs : run[m]? = some s)
    (ht : segments[g.spansBefore c + run.length]? = some t) : continues s t = false := by
  have hbefore := Geometry.spansBefore_succ (branches_getElem? hg hrun)
  rw [spanCount_branchOfRun] at hbefore
  rw [← hbefore] at ht
  have hnext : c + 1 < (segments.splitBy continues).length := by
    by_contra! hge
    have hall : g.spansBefore (c + 1) = segments.length := by
      rw [spansBefore_branches hg, List.take_of_length_le (by simpa using hge), sum_length_runs]
    rw [hall, List.getElem?_eq_none le_rfl] at ht
    cases ht
  obtain ⟨hne, hne', hcut⟩ :=
    List.isChain_iff_getElem.mp (List.isChain_getLast_head_splitBy continues segments) c hnext
  obtain ⟨hc, rfl⟩ := List.getElem?_eq_some_iff.mp hrun
  have hhead := segments_getElem?_spansBefore hg (List.getElem?_eq_getElem hnext)
    (List.length_pos_of_ne_nil hne')
  rw [Nat.add_zero, ht, ← List.head?_eq_getElem?, List.head?_eq_some_head hne'] at hhead
  have hlast : (segments.splitBy continues)[c].getLast? = some s := by
    rw [List.getLast?_eq_getElem?, ← hm, Nat.add_sub_cancel, hs]
  rw [List.getLast?_eq_some_getLast hne] at hlast
  rwa [Option.some.inj hlast, ← Option.some.inj hhead] at hcut

/-- Two segments in a row are on one branch exactly if the second continues the first. -/
lemma onOneBranch_succ_iff (hs : segments[k]? = some s) (ht : segments[k + 1]? = some t) :
    g.OnOneBranch k (k + 1) ↔ continues s t = true := by
  constructor
  · rintro ⟨c, hk, hk'⟩
    obtain ⟨run, m, hrun, rfl, hm⟩ := (hasSpan_branches_iff hg).mp hk
    obtain ⟨run', m', hrun', hm', hlt⟩ := (hasSpan_branches_iff hg).mp hk'
    obtain rfl : run = run' := Option.some.inj (hrun.symm.trans hrun')
    obtain rfl : m' = m + 1 := by omega
    rw [segments_getElem?_spansBefore hg hrun hm] at hs
    rw [Nat.add_assoc, segments_getElem?_spansBefore hg hrun hlt] at ht
    have hchain := List.isChain_of_mem_splitBy (List.mem_of_getElem? hrun)
    obtain ⟨_, rfl⟩ := List.getElem?_eq_some_iff.mp hs
    obtain ⟨_, rfl⟩ := List.getElem?_eq_some_iff.mp ht
    exact List.isChain_iff_getElem.mp hchain m hlt
  · intro hcontinues
    have hk : k + 1 < segments.length := (List.getElem?_eq_some_iff.mp ht).1
    obtain ⟨c, hc⟩ := exists_hasSpan hg (Nat.lt_of_succ_lt hk)
    obtain ⟨run, m, hrun, hkm, hm⟩ := (hasSpan_branches_iff hg).mp hc
    by_cases hlt : m + 1 < run.length
    · exact ⟨c, hc, (hasSpan_branches_iff hg).mpr ⟨run, m + 1, hrun, by omega, hlt⟩⟩
    · have hend : m + 1 = run.length := by omega
      have hsrun := segments_getElem?_spansBefore hg hrun hm
      rw [← hkm, hs] at hsrun
      have hcut := not_continues_of_cut hg hrun hend hsrun.symm (by
        rwa [← hend, ← Nat.add_assoc, ← hkm])
      exact absurd hcontinues (by simp [hcut])

end Assembled

/-! ## Spans by their segments -/

/-- The samples of a run: where it begins, and the end of each segment. -/
def samplesOfRun (s : Turtle.Segment) (rest : List Turtle.Segment) : List Sample :=
  ⟨s.start, s.startRadius⟩ :: (s :: rest).map fun t => ⟨t.stop, t.stopRadius⟩

lemma exists_knot {rest : List Turtle.Segment} {x : Sample} (bevel : Float32)
    (hx : (samplesOfRun s rest)[m]? = some x) :
    ∃ k : Knot, (branchOfRun bevel (s :: rest)).knots[m]? = some k ∧ k.sample = x := by
  have hsamples : (branchOfRun bevel (s :: rest)).knots.map Knot.sample = samplesOfRun s rest :=
    Branch.map_sample_knots_ofSamples ..
  rwa [← hsamples, List.getElem?_map, Option.map_eq_some_iff] at hx

/-- The span with the number of a segment in its run draws it. -/
lemma exists_drawnBetween {rest : List Turtle.Segment} (bevel : Float32)
    (hrun : (s :: rest).IsChain fun s t => continues s t = true)
    (ht : (s :: rest)[m]? = some t) :
    ∃ a z, (branchOfRun bevel (s :: rest)).knots[m]? = some a ∧
      (branchOfRun bevel (s :: rest)).knots[m + 1]? = some z ∧ t.DrawnBetween a z := by
  have hends : ∀ {i u}, (s :: rest)[i]? = some u →
      (samplesOfRun s rest)[i + 1]? = some ⟨u.stop, u.stopRadius⟩ := by
    intro i u hu
    rw [samplesOfRun, List.getElem?_cons_succ, List.getElem?_map, hu, Option.map_some]
  obtain ⟨z, hz, hstop⟩ := exists_knot bevel (hends ht)
  cases m with
  | zero =>
    obtain rfl : s = t := Option.some.inj ht
    obtain ⟨a, ha, hstart⟩ := exists_knot bevel (show (samplesOfRun s rest)[0]? = _ from rfl)
    exact ⟨a, z, ha, hz, hstop, .inl hstart⟩
  | succ m =>
    -- The knot before is the end of the segment before, which this one continues.
    obtain ⟨hm, rfl⟩ := List.getElem?_eq_some_iff.mp ht
    obtain ⟨a, ha, hstart⟩ := exists_knot bevel
      (hends (List.getElem?_eq_getElem (Nat.lt_of_succ_lt hm)))
    have hbefore := List.isChain_iff_getElem.mp hrun m hm
    have hposition : a.position = (s :: rest)[m].stop := congrArg Sample.position hstart
    exact ⟨a, z, ha, hz, hstop, .inr (hposition ▸ (continues_iff.mp hbefore).2)⟩

/-- The segments of a run have one depth. -/
lemma depth_eq_of_mem_run {rest : List Turtle.Segment}
    (hrun : (s :: rest).IsChain fun s t => continues s t = true) (ht : t ∈ s :: rest) :
    t.depth = s.depth := by
  induction rest generalizing s with
  | nil => rw [List.mem_singleton.mp ht]
  | cons u rest ih =>
    rcases List.mem_cons.mp ht with rfl | hmem
    · rfl
    · have hcontinues := hrun.rel
      rw [ih hrun.tail hmem, (continues_iff.mp hcontinues).1]

/-- The span with the number of a segment draws it. -/
lemma drawn_branches (hg : g.branches = branches bevel segments) (hs : segments[k]? = some s) :
    g.Draws k s := by
  obtain ⟨c, hc⟩ := exists_hasSpan hg (List.getElem?_eq_some_iff.mp hs).1
  obtain ⟨run, m, hrun, rfl, hm⟩ := (hasSpan_branches_iff hg).mp hc
  rw [segments_getElem?_spansBefore hg hrun hm] at hs
  have hchain := List.isChain_of_mem_splitBy (List.mem_of_getElem? hrun)
  cases run with
  | nil => cases hs
  | cons first rest =>
    obtain ⟨a, z, ha, hz, hdrawn⟩ := exists_drawnBetween bevel hchain hs
    have hdepth := depth_eq_of_mem_run hchain (List.mem_of_getElem? hs)
    exact ⟨c, _, m, a, z, branches_getElem? hg hrun, rfl, ha, hz, hdepth.symm, hdrawn⟩

end Assembly

end Arbor
