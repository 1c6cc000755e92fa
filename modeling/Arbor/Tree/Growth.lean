import Arbor.Recipe.Basic
import Arbor.Turtle.Walk

/-!
# Growth

A recipe whose grammar has been read is a plan.  To grow a plan is to derive a word, to walk it,
and to assemble what the walk recorded; nothing is kept between two growths.
-/

namespace Arbor

open Chance

/-- A grown tree. -/
structure Tree where
  /-- The length of the derived word. -/
  symbolCount : Nat
  trace : Turtle.Trace
  geometry : Geometry
  deriving DecidableEq

/-- A recipe with its grammar. -/
structure Plan where
  recipe : Recipe
  start : Word
  productions : Productions

namespace Plan

/-- The plan of a recipe that can be used and whose rules can be read. -/
def ofRecipe (r : Recipe) : Except Failure Plan := do
  r.check
  let productions ← Productions.ofText r.rulesText
  return ⟨r, Word.ofText r.axiomText, productions⟩

/-- The derived word. -/
def word (p : Plan) : Except Failure Word :=
  p.productions.derive p.start p.recipe.iterations p.recipe.limits

/-- The tree of the plan with the variation of another seed. -/
def growWith (p : Plan) (seed : UInt64) : Except Failure Tree := do
  let word ← p.word
  let (trace, _) ← Turtle.walk p.recipe.turtle word (Seeded.ofSeed seed)
  let geometry ←
    Assembly.assemble trace.segments trace.leaves { p.recipe.assembly with seed := seed }
  return ⟨word.length, trace, geometry⟩

/-- The tree of the plan. -/
def grow (p : Plan) : Except Failure Tree := p.growWith p.recipe.seed

/-- The tree of the plan, where brackets without a partner are a failure. -/
def growStrict (p : Plan) : Except Failure Tree := do
  let tree ← p.grow
  tree.trace.ensureBalanced
  return tree

end Plan

/-- The tree of a recipe. -/
def Recipe.grow (r : Recipe) : Except Failure Tree := do
  let plan ← Plan.ofRecipe r
  plan.grow

end Arbor
