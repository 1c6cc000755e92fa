import Arbor.Proofs.Lindenmayer.Generations
import Arbor.Proofs.Shape.Drawing
import Arbor.Proofs.Turtle.Admissible
import Arbor.Proofs.Turtle.Skeleton
import Arbor.Tree.Growth

/-!
# Grown trees

A growth that succeeds has derived a word within the limits, and its tree is a function of this
word and the plan (`Plan.growWith_eq_ok_iff`).  The sizes of the tree are bounded by the length of
the word: every segment comes from a drawn move and every leaf from a closing bracket
(`Tree.Measured`).
-/

namespace Arbor

open Chance Turtle

namespace Plan

variable (p : Plan)

/-- The tree that a plan makes of a word. -/
def treeOf (seed : UInt64) (w : Word) : Tree :=
  let trace := (after p.recipe.turtle (Seeded.ofSeed seed) w).trace
  let s := { p.recipe.assembly with seed := seed }
  ⟨w.length, trace, Assembly.branches s.bevelDepth trace.segments,
    if s.addLeaves then Assembly.placeLeaves s trace.leaves else []⟩

/-- A growth succeeds exactly if its settings can be used and the derivation succeeds. -/
lemma growWith_eq_ok_iff (seed : UInt64) (t : Tree) : p.growWith seed = .ok t ↔
    ∃ w, p.word = .ok w ∧ p.recipe.turtle.check = .ok () ∧
      ({ p.recipe.assembly with seed := seed } : Assembly.Settings).check = .ok () ∧
        t = p.treeOf seed w := by
  rw [growWith, bind_eq_ok_iff]
  refine exists_congr fun w => and_congr_right fun _ => ?_
  rw [bind_eq_ok_iff]
  constructor
  · rintro ⟨⟨trace, out⟩, hwalk, h⟩
    rw [walk, bind_eq_ok_iff] at hwalk
    obtain ⟨⟨⟩, hturtle, hwalk⟩ := hwalk
    obtain ⟨geometry, hassemble, h⟩ := bind_eq_ok_iff.mp h
    obtain ⟨⟨⟩, hassembly, hassemble⟩ := bind_eq_ok_iff.mp hassemble
    cases hwalk
    cases hassemble
    cases h
    exact ⟨hturtle, hassembly, rfl⟩
  · rintro ⟨hturtle, hassembly, rfl⟩
    refine ⟨_, walk_eq _ _ hturtle w, ?_⟩
    dsimp only
    rw [Assembly.assemble, hassembly]
    rfl

end Plan

/-! ## Sizes -/

/-- The sizes of a tree are within its number of symbols and the ceiling, and its branches span all
segments. -/
structure Tree.Measured (t : Tree) : Prop where
  symbols : t.symbolCount ≤ Limits.ceiling
  segments : t.trace.segments.length ≤ t.symbolCount
  leaves : t.geometry.leaves.length ≤ t.symbolCount
  spanned : t.geometry.Spanned
  spans : t.geometry.spanTotal = t.trace.segments.length

lemma Plan.treeOf_measured (p : Plan) (seed : UInt64) {w : Word} (h : w.length ≤ Limits.ceiling) :
    (p.treeOf seed w).Measured where
  symbols := h
  segments := by
    simp only [treeOf, after_trace, List.length_map]
    exact Word.length_places_le ..
  leaves := by
    simp only [treeOf]
    split
    · rw [Assembly.length_placeLeaves, after_trace, List.length_map]
      exact Word.length_places_le ..
    · exact Nat.zero_le _
  spanned := fun _ hb => Assembly.spanCount_pos_of_mem_branches hb
  spans := Assembly.sum_spanCount_branches ..

lemma Recipe.measured_of_grow {r : Recipe} {t : Tree} (h : r.grow = .ok t) : t.Measured := by
  obtain ⟨p, -, hgrow⟩ := bind_eq_ok_iff.mp h
  obtain ⟨w, hword, -, -, rfl⟩ := (p.growWith_eq_ok_iff _ t).mp hgrow
  have hlength := Productions.length_le_of_derive_eq_ok p.productions hword
  exact p.treeOf_measured _ (le_trans hlength (Nat.min_le_right ..))

end Arbor
