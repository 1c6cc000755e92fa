import Arbor.Document.Writing
import Arbor.Recipe.Catalog

/-!
# Recipes and catalogs as documents

A recipe is a document of fields, all of which may be left out; reading ends with the check of the
recipe.  A catalog is a document with a list of presets, of which only the variation may be left
out.
-/

namespace Arbor

open Document

/-- The bound of a 32-bit count. -/
def countBound : Nat := UInt32.size

/-- The bound of a 64-bit count. -/
def wideBound : Nat := UInt64.size

/-- A vector as a group of its three coordinates. -/
def Vec3.ofNode (c : Contents) (n : Node) : Allowed Vec3 := do
  let fields ← c.fields n
  return ⟨← required fields "x" c.single, ← required fields "y" c.single,
    ← required fields "z" c.single⟩

namespace Recipe

/-- The recipe of a document, unchecked. -/
def ofContents (c : Contents) : Allowed Recipe := do
  let fields ← c.rootFields
  let d := Recipe.usual
  let text (key : String) (usual : String) := optional fields key usual c.string
  let single (key : String) (usual : Float32) := optional fields key usual c.single
  let bool (key : String) (usual : Bool) := optional fields key usual c.bool
  return {
    axiomText := ← text "axiom" d.axiomText
    rulesText := ← text "rules" d.rulesText
    iterations := ← optional fields "iterations" d.iterations (c.nat countBound)
    angle := ← single "angle" d.angle
    initialLength := ← single "initial_length" d.initialLength
    lengthDecay := ← single "length_decay" d.lengthDecay
    initialRadius := ← single "initial_radius" d.initialRadius
    radiusDecay := ← single "radius_decay" d.radiusDecay
    bevelDepth := ← single "bevel_depth" d.bevelDepth
    branchSpread := ← single "branch_spread" d.branchSpread
    rotationJitter := ← single "rotation_jitter" d.rotationJitter
    lengthJitter := ← single "length_jitter" d.lengthJitter
    tropismStrength := ← single "tropism_strength" d.tropismStrength
    tropismDirection :=
      ← optional fields "tropism_direction" d.tropismDirection (Vec3.ofNode c)
    seed := ← optional fields "seed" d.seed fun n => Nat.toUInt64 <$> c.nat wideBound n
    addLeaves := ← bool "add_leaves" d.addLeaves
    leafSize := ← single "leaf_size" d.leafSize
    leafJitter := ← single "leaf_jitter" d.leafJitter
    branchRoll := ← bool "branch_roll" d.branchRoll
    maxSymbols := ← optional fields "max_symbols" d.maxSymbols (c.nat wideBound) }

/-- Reads a recipe that can be used. -/
def ofDocument (text : String) : Except Failure Recipe :=
  match (Contents.ofText text.toList).bind fun c => c.read ofContents with
  | none => .error .unreadable
  | some r => do
    r.check
    return r

/-- The document that says all of a recipe. -/
def toDocument (r : Recipe) : String :=
  let single (x : Float32) : Written := .plain (Decimal.document x)
  let nat (n : Nat) : Written := .plain (Decimal.digits n)
  let bool (b : Bool) : Written := .plain (if b then "true".toList else "false".toList)
  let d := r.tropismDirection
  String.ofList <| document
    [("axiom", .text r.axiomText.toList), ("rules", .text r.rulesText.toList),
      ("iterations", nat r.iterations), ("angle", single r.angle),
      ("initial_length", single r.initialLength), ("length_decay", single r.lengthDecay),
      ("initial_radius", single r.initialRadius), ("radius_decay", single r.radiusDecay),
      ("bevel_depth", single r.bevelDepth), ("branch_spread", single r.branchSpread),
      ("rotation_jitter", single r.rotationJitter), ("length_jitter", single r.lengthJitter),
      ("tropism_strength", single r.tropismStrength),
      ("tropism_direction", .group [(['x'], Decimal.document d.x), (['y'], Decimal.document d.y),
        (['z'], Decimal.document d.z)]),
      ("seed", nat r.seed.toNat), ("add_leaves", bool r.addLeaves),
      ("leaf_size", single r.leafSize), ("leaf_jitter", single r.leafJitter),
      ("branch_roll", bool r.branchRoll), ("max_symbols", nat r.maxSymbols)]

end Recipe

/-- A preset as a group of fields. -/
def Preset.ofNode (c : Contents) (n : Node) : Allowed Preset := do
  let fields ← c.fields n
  let single (key : String) (usual : Float32) := optional fields key usual c.single
  return {
    key := ← required fields "key" c.string
    name := ← required fields "name" c.string
    axiomText := ← required fields "axiom" c.string
    rulesText := ← required fields "rules" c.string
    iterations := ← required fields "iterations" (c.nat countBound)
    angle := ← required fields "angle" c.single
    initialLength := ← single "initial_length" 1
    lengthDecay := ← required fields "length_decay" c.single
    initialRadius := ← single "initial_radius" 1
    radiusDecay := ← required fields "radius_decay" c.single
    bevelDepth := ← single "bevel_depth" 0.05
    tropismStrength := ← single "tropism_strength" 0.05
    rotationJitter := ← single "rotation_jitter" 5
    lengthJitter := ← single "length_jitter" 0.1
    leafJitter := ← single "leaf_jitter" 0.1
    branchSpread := ← single "branch_spread" 30 }

namespace Catalog

/-- The presets of a document, unchecked. -/
def presetsOf (c : Contents) : Allowed (List Preset) := do
  let fields ← c.rootFields
  required fields "presets" fun n => do (← c.items n).mapM (Preset.ofNode c)

/-- Reads a catalog of presets that can be used. -/
def ofDocument (text : String) : Except Failure Catalog :=
  match (Contents.ofText text.toList).bind fun c => c.read presetsOf with
  | none => .error .unreadable
  | some presets => ofList presets

end Catalog

end Arbor
