import Arbor.Proofs.Lindenmayer.Balance
import Arbor.Proofs.Tree.Safety

/-!
# Growth of balanced grammars

A plan whose axiom and whose replacements are balanced, and which does not replace brackets, derives
balanced words only.  So its trees have no warnings, a leaf for each branch of the word, and the
strict growth is the growth (`growth_of_balanced`).
-/

namespace Arbor.Plan

open Word

variable {p : Plan}

/-- The axiom is balanced, and the grammar keeps balance. -/
structure Balanced (p : Plan) : Prop where
  start : IsBalanced p.start
  productions : p.productions.KeepsBalance

lemma Balanced.word (h : p.Balanced) {w : Word} (hw : p.word = .ok w) : IsBalanced w :=
  h.productions.isBalanced_of_derive h.start hw

/-! ## The tree of a balanced word -/

variable {seed : UInt64} {w : Word}

lemma warnings_treeOf_of_balanced (hw : IsBalanced w) :
    (p.treeOf seed w).trace.warnings = [] := by
  have hwarns : (p.treeOf seed w).trace.Warns w := by
    simp only [Turtle.Trace.Warns, treeOf, Turtle.after_trace]
  exact List.isEmpty_iff.mp (hwarns.isBalanced_iff.mpr hw)

lemma length_leaves_treeOf (p : Plan) (seed : UInt64) (w : Word) :
    (p.treeOf seed w).trace.leaves.length = (closings w).length := by
  simp only [treeOf, Turtle.after_trace, List.length_map]

/-- Every leaf of the trace is placed, if leaves are asked for. -/
lemma length_geometry_leaves_treeOf (p : Plan) (seed : UInt64) (w : Word) :
    (p.treeOf seed w).geometry.leaves.length =
      if p.recipe.addLeaves then (closings w).length else 0 := by
  rw [← length_leaves_treeOf p seed w]
  show List.length (if p.recipe.addLeaves then _ else _) = _
  split_ifs
  · exact Assembly.length_placeLeaves
  · rfl

/-- A strict growth fails only by the growth or by a warning. -/
lemma growStrict_eq_grow (hturtle : p.recipe.turtle.check = .ok ())
    (hassembly : p.recipe.assembly.check = .ok ())
    (hwarnings : ∀ t, p.grow = .ok t → t.trace.warnings = []) : p.growStrict = p.grow := by
  rw [growStrict_eq hturtle hassembly]
  cases hgrow : p.grow with
  | error e => rfl
  | ok t => simp [Except.bind, hwarnings t hgrow]

/-- **Balanced grammars grow without warnings.**  If the axiom and all replacements of a plan are
balanced and no bracket is replaced, every derived word is balanced, for any number of passes and
any limits.  A tree of such a word, with any seed, has no warnings and one leaf for each opening and
for each closing bracket of the word, all of which are placed if leaves are asked for.  The strict
growth is the growth, also where that fails. -/
theorem growth_of_balanced {r : Recipe} (h : ofRecipe r = .ok p) (hbalanced : p.Balanced) :
    (∀ n limits w, p.productions.derive p.start n limits = .ok w → IsBalanced w) ∧
    (∀ w, p.word = .ok w → ∀ seed, ∃ t, p.growWith seed = .ok t ∧ t.symbolCount = w.length ∧
      t.trace.warnings = [] ∧ t.trace.leaves.length = w.count .push ∧
        t.trace.leaves.length = w.count .pop ∧
          t.geometry.leaves.length = if r.addLeaves then w.count .push else 0) ∧
    p.growStrict = p.grow := by
  obtain ⟨rfl, -, -, -, hturtle, hassembly⟩ := checks_of_ofRecipe h
  refine ⟨fun n limits w hw => hbalanced.productions.isBalanced_of_derive hbalanced.start hw,
    fun w hw seed => ?_, growStrict_eq_grow hturtle hassembly fun t ht => ?_⟩
  · obtain ⟨hpush, hpop⟩ := (hbalanced.word hw).length_closings
    refine ⟨p.treeOf seed w, growWith_eq_ok h hw seed, rfl,
      warnings_treeOf_of_balanced (hbalanced.word hw), ?_, ?_, ?_⟩
    · rw [length_leaves_treeOf, hpush]
    · rw [length_leaves_treeOf, hpop]
    · rw [length_geometry_leaves_treeOf, hpush]
  · obtain ⟨w, hw, -, -, rfl⟩ := (p.growWith_eq_ok_iff _ t).mp ht
    exact warnings_treeOf_of_balanced (hbalanced.word hw)

/-- The usual grammar is balanced; after two passes its word has eight branches. -/
theorem growth_of_balanced_usual : ∃ p w,
    ofRecipe { Recipe.usual with iterations := 2 } = .ok p ∧ p.Balanced ∧ p.word = .ok w ∧
      p.growStrict = p.grow ∧ ∃ t, p.grow = .ok t ∧ t.trace.warnings = [] ∧
        t.trace.leaves.length = 8 ∧ t.geometry.leaves.length = 8 := by
  let r : Recipe := { Recipe.usual with iterations := 2 }
  obtain ⟨p, hp, hstart, hproductions, hword⟩ : ∃ p, ofRecipe r = .ok p ∧ IsBalanced p.start ∧
      p.productions.KeepsBalance ∧
        p.word.toOption.any (fun w => decide (w.count .push = 8)) = true :=
    exists_eq_ok_of_any _ (by decide +kernel)
  obtain ⟨w, hw, hcount⟩ := exists_eq_ok_of_any (fun w : Word => w.count .push = 8) hword
  have hbalanced : p.Balanced := ⟨hstart, hproductions⟩
  obtain ⟨-, htrees, hstrict⟩ := growth_of_balanced hp hbalanced
  obtain ⟨t, ht, -, hwarnings, hleaves, -, hplaced⟩ := htrees w hw p.recipe.seed
  have haddLeaves : r.addLeaves = true := rfl
  rw [hcount] at hleaves
  rw [haddLeaves, if_pos rfl, hcount] at hplaced
  exact ⟨p, w, hp, hbalanced, hw, hstrict, t, ht, hwarnings, hleaves, hplaced⟩

end Arbor.Plan
