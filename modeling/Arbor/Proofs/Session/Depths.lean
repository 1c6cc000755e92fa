import Arbor.Proofs.Lindenmayer.Height
import Arbor.Proofs.Session.Operations
import Arbor.Proofs.Tree.Safety
import Arbor.Recipe.Document

/-!
# Depths

Every depth that a tree shows is the number of branches that are open at some place of its word: a
segment has that of its move, a leaf that behind its bracket, a branch that of its first segment.
So what bounds the word at all places bounds the tree (`Plan.noDeeper_treeOf`): the height of the
axiom and `n` times that of the replacements for a balanced grammar, and the number of symbols for
any grammar.

The second bound is far below `2 ^ 31`, so the depth of a branch is handed out as a signed 32-bit
word without a change, and minus one is left for what is no branch (`depths_fit`).
-/

namespace Arbor

open Word Turtle

/-! ## Depths of a trace -/

/-- No segment and no leaf of the trace is deeper than `d`. -/
structure Turtle.Trace.NoDeeper (t : Trace) (d : ℕ) : Prop where
  segments : ∀ g ∈ t.segments, g.depth ≤ d
  leaves : ∀ l ∈ t.leaves, l.depth ≤ d
  maxDepth : t.maxDepth ≤ d

variable {w : Word} {d : ℕ}

lemma Turtle.Trace.maxDepth_le {t : Trace} (h : ∀ g ∈ t.segments, g.depth ≤ d) :
    t.maxDepth ≤ d := by
  rw [Trace.maxDepth_eq]
  cases hmax : (t.segments.map Segment.depth).max? with
  | none => exact Nat.zero_le d
  | some m =>
    obtain ⟨g, hg, rfl⟩ := List.mem_map.mp (List.max?_mem hmax)
    exact h g hg

/-- A trace is no deeper than its word. -/
lemma Turtle.noDeeper_after {σ : Type} [Source σ] (s : Settings) (source : σ)
    (h : ∀ i, depthAt w i ≤ d) : (after s source w).trace.NoDeeper d := by
  have hsegments : ∀ g ∈ (after s source w).trace.segments, g.depth ≤ d := by
    intro g hg
    rw [after_trace] at hg
    obtain ⟨i, -, rfl⟩ := List.mem_map.mp hg
    exact h i
  refine ⟨hsegments, ?_, Trace.maxDepth_le hsegments⟩
  intro l hl
  rw [after_trace] at hl
  obtain ⟨i, -, rfl⟩ := List.mem_map.mp hl
  exact h (i + 1)

/-! ## Depths of a tree -/

/-- No part of the tree is deeper than `d`. -/
structure Tree.NoDeeper (t : Tree) (d : ℕ) : Prop where
  trace : t.trace.NoDeeper d
  branches : ∀ b ∈ t.geometry.branches, b.depth ≤ d
  leaves : ∀ l ∈ t.geometry.leaves, l.depth ≤ d

/-- The depth of a branch is that of the first segment of its run. -/
lemma Assembly.exists_depth_eq {bevel : Float32} {segments : List Segment} {b : Branch}
    (h : b ∈ branches bevel segments) : ∃ g ∈ segments, b.depth = g.depth := by
  obtain ⟨run, hrun, rfl⟩ := List.mem_map.mp h
  cases run with
  | nil => exact absurd rfl (List.ne_nil_of_mem_splitBy hrun)
  | cons g rest =>
    refine ⟨g, ?_, rfl⟩
    rw [← List.flatten_splitBy continues segments]
    exact List.mem_flatten_of_mem hrun List.mem_cons_self

lemma Plan.noDeeper_treeOf (p : Plan) (seed : UInt64) (h : ∀ i, depthAt w i ≤ d) :
    (p.treeOf seed w).NoDeeper d := by
  have htrace : (p.treeOf seed w).trace.NoDeeper d := noDeeper_after _ _ h
  refine ⟨htrace, ?_, ?_⟩
  · intro b hb
    obtain ⟨g, hg, hdepth⟩ := Assembly.exists_depth_eq hb
    rw [hdepth]
    exact htrace.segments g hg
  · intro l hl
    rw [treeOf] at hl
    dsimp only at hl
    split_ifs at hl
    · obtain ⟨leaf, hleaf, t, -, rfl⟩ := Assembly.exists_of_mem_placeLeaves hl
      exact htrace.leaves leaf hleaf
    · cases hl

lemma Recipe.noDeeper_of_grow {r : Recipe} {t : Tree} (h : r.grow = .ok t) :
    t.NoDeeper t.symbolCount := by
  obtain ⟨p, -, hgrow⟩ := bind_eq_ok_iff.mp h
  obtain ⟨w, -, -, -, rfl⟩ := (p.growWith_eq_ok_iff _ t).mp hgrow
  exact p.noDeeper_treeOf _ (depthAt_le_length w)

/-! ## Depths that are handed out -/

namespace Session

variable {read : String → Except Failure Recipe} {s : Session}

lemma branch?_eq {t : Tree} (ht : s.tree = some t) (i : ℕ) :
    s.branch? i = t.geometry.branches[i]? := by
  rw [branch?, ht]
  rfl

lemma branch?_eq_none_iff (i : ℕ) : s.branch? i = none ↔ s.branchCount ≤ i := by
  cases ht : s.tree with
  | none => simp [branch?, branchCount, ht]
  | some t => simp [branch?_eq ht, branchCount, ht]

lemma branchDepth_of_none {i : ℕ} (h : s.branch? i = none) : s.branchDepth i = -1 := by
  rw [branchDepth, h, Option.elim_none]

/-- Below `2 ^ 31` a depth is the same as a signed 32-bit word. -/
lemma branchDepth_of_some {i : ℕ} {b : Branch} (h : s.branch? i = some b)
    (hdepth : b.depth < 2 ^ 31) : s.branchDepth i = b.depth := by
  have hsize : UInt32.size = 2 ^ 32 := rfl
  rw [branchDepth, h, Option.elim_some, hsize]
  exact Int.bmod_eq_of_le (by omega) (by omega)

lemma Reachable.noDeeper (h : Reachable read s) {t : Tree} (ht : s.tree = some t) :
    t.symbolCount ≤ 16000000 ∧ t.NoDeeper t.symbolCount := by
  obtain ⟨r, hr⟩ := h.coherent.grown t ht
  exact ⟨(Recipe.measured_of_grow hr).symbols, Recipe.noDeeper_of_grow hr⟩

lemma Reachable.branchDepth_eq (h : Reachable read s) {i : ℕ} {b : Branch}
    (hb : s.branch? i = some b) : s.branchDepth i = b.depth := by
  cases ht : s.tree with
  | none => simp [branch?, ht] at hb
  | some t =>
    obtain ⟨hsymbols, hdeep⟩ := h.noDeeper ht
    rw [branch?_eq ht] at hb
    have hdepth := hdeep.branches b (List.mem_of_getElem? hb)
    exact branchDepth_of_some (by rw [branch?_eq ht, hb]) (by omega)

/-- **Depths are bounded by the grammar, and handed out as they are.**  If an axiom and all
replacements are balanced and no bracket is replaced, a word that `n` passes derive has nowhere more
branches open than the height of the axiom and `n` times the height of the replacements, and no walk
over it is deeper.  With any grammar no walk over a derived word is deeper than the word is long.
So in every session that operations lead to, nothing is deeper than the number of symbols; the depth
of each branch is handed out as it is, and minus one for those numbers alone that are no
branch's. -/
theorem depths_fit :
    (∀ (p : Productions) (start w : Word) (n : ℕ) (limits : Limits), IsBalanced start →
      p.KeepsBalance → p.derive start n limits = .ok w →
        (∀ i, depthAt w i ≤ start.height + n * p.height) ∧
        ∀ (σ : Type) [Source σ] (s : Settings) (source : σ), s.check = .ok () →
          ∃ t out, walk s w source = .ok (t, out) ∧
            t.NoDeeper (start.height + n * p.height)) ∧
    (∀ (p : Productions) (start w : Word) (n : ℕ) (limits : Limits),
      p.derive start n limits = .ok w → w.length ≤ 16000000 ∧
        ∀ (σ : Type) [Source σ] (s : Settings) (source : σ), s.check = .ok () →
          ∃ t out, walk s w source = .ok (t, out) ∧ t.NoDeeper w.length) ∧
    ∀ (read : String → Except Failure Recipe) (s : Session), Reachable read s →
      (∀ t, s.tree = some t → s.symbolCount ≤ 16000000 ∧ t.NoDeeper s.symbolCount) ∧
      (∀ i < s.branchCount, ∃ b, s.branch? i = some b ∧ s.branchDepth i = b.depth) ∧
      ∀ i, s.branchDepth i = -1 ↔ s.branchCount ≤ i := by
  refine ⟨?_, ?_, ?_⟩
  · intro p start w n limits hstart hp hw
    have hdepth := hp.depthAt_le_of_derive hstart hw
    refine ⟨hdepth, ?_⟩
    intro σ _ s source hs
    exact ⟨_, _, walk_eq s source hs w, noDeeper_after s source hdepth⟩
  · intro p start w n limits hw
    have hlength := Productions.length_le_of_derive_eq_ok p hw
    refine ⟨hlength.trans (Nat.min_le_right ..), ?_⟩
    intro σ _ s source hs
    exact ⟨_, _, walk_eq s source hs w, noDeeper_after s source (depthAt_le_length w)⟩
  · intro read s h
    refine ⟨?_, ?_, ?_⟩
    · intro t ht
      have hcount : s.symbolCount = t.symbolCount := by rw [symbolCount, ht, Option.elim_some]
      rw [hcount]
      exact h.noDeeper ht
    · intro i hi
      cases hb : s.branch? i with
      | none => exact absurd ((branch?_eq_none_iff i).mp hb) (Nat.not_le.mpr hi)
      | some b => exact ⟨b, rfl, h.branchDepth_eq hb⟩
    · intro i
      rw [← branch?_eq_none_iff]
      cases hb : s.branch? i with
      | none => simp [branchDepth_of_none hb]
      | some b =>
        simp [h.branchDepth_eq hb]

/-- A grammar whose words reach the bound, and a session with a branch inside another one. -/
theorem depths_fit_nested :
    (∃ (p : Productions) (start w : Word) (t : Trace) (out : Chance.Seeded), IsBalanced start ∧
      p.KeepsBalance ∧ p.derive start 2 .usual = .ok w ∧ w.height = 3 ∧ (∀ i, depthAt w i ≤ 3) ∧
      walk .usual w (Chance.Seeded.ofSeed 7) = .ok (t, out) ∧ t.NoDeeper 3) ∧
    ∃ s, Reachable Recipe.ofDocument s ∧ s.branchCount = 3 ∧
      (∃ b, s.branch? 2 = some b ∧ s.branchDepth 2 = b.depth) ∧ s.branchDepth 3 = -1 := by
  obtain ⟨hbalanced, -, hsession⟩ := depths_fit
  constructor
  · let p : Productions :=
      ⟨[(.letter 'X', ofText "F[+X]F[-X]"), (.forward, ofText "FF")], by decide⟩
    have hstart : IsBalanced (ofText "F[X]") := by decide
    have hp : p.KeepsBalance := by decide
    have hbound : (ofText "F[X]").height + 2 * p.height = 3 := by decide
    obtain ⟨w, hw, hheight⟩ : ∃ w, p.derive (ofText "F[X]") 2 .usual = .ok w ∧ w.height = 3 :=
      Plan.exists_eq_ok_of_any _ (by decide +kernel)
    obtain ⟨hdepth, hwalks⟩ := hbalanced p _ w 2 .usual hstart hp hw
    obtain ⟨t, out, hwalk, hdeep⟩ := hwalks _ .usual (Chance.Seeded.ofSeed 7) Settings.check_usual
    rw [hbound] at hdepth hdeep
    exact ⟨p, _, w, t, out, hstart, hp, hw, hheight, hdepth, hwalk, hdeep⟩
  · let ops : List Operation := [.setAxiom "F[F[F]]", .setRules "", .setIterations 0, .grow]
    have hcount : (run Recipe.ofDocument ops).branchCount = 3 := by decide +kernel
    have hreach : Reachable Recipe.ofDocument (run Recipe.ofDocument ops) := ⟨ops, rfl⟩
    obtain ⟨-, hbranches, hnone⟩ := hsession _ _ hreach
    rw [hcount] at hbranches
    exact ⟨_, hreach, hcount, hbranches 2 (by decide), (hnone 3).mpr hcount.le⟩

end Session

end Arbor
