import Arbor.Proofs.Tree.Safety

/-!
# Variants of a tree

There are two ways to another tree of the same recipe.  A growth can be given another seed, and it
then reads no other: not for the walk and not for the twists, so it is the growth of the recipe with
this seed.  Or the tree can be dressed in another way, with other leaves and another thickness of
its tubes.  The walk does not know how the tree is dressed, and twists are drawn from a source of
their own, so the dress is put on at the end: it is a function of the tree (`Tree.dress`), and a
growth commutes with it (`Plan.growWith_dress`).
-/

namespace Arbor

/-- How the branches and leaves of a tree are shown. -/
structure Dress where
  bevelDepth : Float32
  addLeaves : Bool
  leafSize : Float32

/-- What the assembly goes by in this dress. -/
def Dress.assembly (d : Dress) (seed : UInt64) : Assembly.Settings :=
  ⟨d.bevelDepth, d.addLeaves, d.leafSize, seed⟩

/-- The recipe in another dress. -/
def Recipe.dress (r : Recipe) (d : Dress) : Recipe :=
  { r with bevelDepth := d.bevelDepth, addLeaves := d.addLeaves, leafSize := d.leafSize }

/-- The branch in another thickness. -/
def Branch.withBevel (bevel : Float32) (b : Branch) : Branch := { b with bevel := bevel }

/-- The leaf in another size. -/
def LeafInstance.withScale (size : Float32) (l : LeafInstance) : LeafInstance :=
  { l with scale := size }

/-! ## The dress of a geometry -/

namespace Assembly

lemma branchOfRun_withBevel (b b' : Float32) (run : List Turtle.Segment) :
    branchOfRun b' run = (branchOfRun b run).withBevel b' := by
  cases run with
  | nil => rfl
  | cons s rest => rfl

/-- Where branches begin and end has nothing to do with their thickness. -/
lemma branches_withBevel (b b' : Float32) (segments : List Turtle.Segment) :
    branches b' segments = (branches b segments).map (Branch.withBevel b') := by
  rw [branches, branches, List.map_map]
  exact List.map_congr_left fun run _ => branchOfRun_withBevel b b' run

/-- The twists do not depend on the size of the leaves they turn. -/
lemma placeLeavesFrom_withScale {σ : Type} [Source σ] (size size' : Float32) (source : σ)
    (leaves : List Turtle.Leaf) : placeLeavesFrom size' source leaves =
      Prod.map id (Array.map (LeafInstance.withScale size'))
        (placeLeavesFrom size source leaves) := by
  have hnone : (#[] : Array LeafInstance) = #[].map (LeafInstance.withScale size') :=
    Array.map_empty.symm
  unfold placeLeavesFrom
  -- The leaves placed so far grow, and they too differ in their size only.
  conv_lhs => rw [hnone]
  generalize (#[] : Array LeafInstance) = placed
  induction leaves generalizing source placed with
  | nil => rfl
  | cons l leaves ih =>
    have hleaf : placeLeaf size' l (twist source).1 =
        (placeLeaf size l (twist source).1).withScale size' := rfl
    simp only [List.foldl_cons, hleaf, ← Array.map_push]
    exact ih _ _

lemma placeLeaves_withScale (s s' : Settings) (hseed : s'.seed = s.seed)
    (leaves : List Turtle.Leaf) :
    placeLeaves s' leaves = (placeLeaves s leaves).map (LeafInstance.withScale s'.leafSize) := by
  rw [placeLeaves_eq, placeLeaves_eq, hseed,
    placeLeavesFrom_withScale s.leafSize s'.leafSize, Prod.map_snd, Array.toList_map]

end Assembly

/-- The tree of a seed in another dress.  Its leaves are placed anew, since there may have been
none. -/
def Tree.dress (t : Tree) (d : Dress) (seed : UInt64) : Tree where
  symbolCount := t.symbolCount
  trace := t.trace
  geometry :=
    ⟨t.geometry.branches.map (Branch.withBevel d.bevelDepth),
      if d.addLeaves then Assembly.placeLeaves (d.assembly seed) t.trace.leaves else []⟩

namespace Plan

variable {p : Plan} {r r' : Recipe}

/-- Recipes with the same grammar that are checked alike are planned alike. -/
lemma ofRecipe_eq_map (hcheck : r'.check = r.check) (hstart : r'.axiomText = r.axiomText)
    (hrules : r'.rulesText = r.rulesText) :
    ofRecipe r' = (ofRecipe r).map fun p => { p with recipe := r' } := by
  rw [ofRecipe, ofRecipe, hcheck, hstart, hrules]
  cases r.check with
  | error e => rfl
  | ok _ =>
    cases Productions.ofText r.rulesText with
    | error e => rfl
    | ok _ => rfl

/-- The plan of the recipe with another seed. -/
def reseed (p : Plan) (seed : UInt64) : Plan := { p with recipe := { p.recipe with seed := seed } }

/-- The plan of the recipe in another dress. -/
def dress (p : Plan) (d : Dress) : Plan := { p with recipe := p.recipe.dress d }

lemma grow_reseed (p : Plan) (seed : UInt64) : (p.reseed seed).grow = p.growWith seed := rfl

lemma treeOf_dress (d : Dress) (seed : UInt64) (w : Word) :
    (p.dress d).treeOf seed w = (p.treeOf seed w).dress d seed := by
  have hbranches := Assembly.branches_withBevel p.recipe.bevelDepth d.bevelDepth
    (Turtle.after p.recipe.turtle (Chance.Seeded.ofSeed seed) w).trace.segments
  rw [treeOf, treeOf, Tree.dress]
  exact congrArg (fun b => Tree.mk _ _ ⟨b, _⟩) hbranches

/-- Leaves that are there in both dresses differ in their size only. -/
lemma leaves_dress {d : Dress} (h : p.recipe.addLeaves = true) (hd : d.addLeaves = true)
    (seed : UInt64) (w : Word) : ((p.treeOf seed w).dress d seed).geometry.leaves =
      (p.treeOf seed w).geometry.leaves.map (LeafInstance.withScale d.leafSize) := by
  let s : Assembly.Settings := { p.recipe.assembly with seed := seed }
  have hleaves : (p.treeOf seed w).geometry.leaves =
      Assembly.placeLeaves s (p.treeOf seed w).trace.leaves := if_pos h
  have hdressed : ((p.treeOf seed w).dress d seed).geometry.leaves =
      Assembly.placeLeaves (d.assembly seed) (p.treeOf seed w).trace.leaves := if_pos hd
  rw [hleaves, hdressed]
  exact Assembly.placeLeaves_withScale s (d.assembly seed) rfl _

/-- A plan in another dress grows the same tree in that dress. -/
lemma growWith_dress {d : Dress} (hturtle : p.recipe.turtle.check = .ok ())
    (hassembly : p.recipe.assembly.check = .ok ())
    (hdress : (p.recipe.dress d).assembly.check = .ok ()) (seed : UInt64) :
    (p.dress d).growWith seed = (p.growWith seed).map fun t => t.dress d seed := by
  have hword : (p.dress d).word = p.word := rfl
  have htree : (p.dress d).treeOf seed = fun w => (p.treeOf seed w).dress d seed :=
    funext (treeOf_dress d seed)
  rw [growWith_eq hturtle hassembly, growWith_eq (p := p.dress d) hturtle hdress, hword, htree]
  cases p.word with
  | error e => rfl
  | ok w => rfl

/-- **Variants.**  Any recipe and the same recipe with another seed are both planned or both fail
for the same reason, and to grow the one plan with the seed is to grow the other.  A recipe and the
same recipe in another dress, if both pass their checks, are both planned or both fail for the same
reason, and so are their growths.  The trees have the same number of symbols and the same trace; the
branches of one are those of the other in another thickness, with the same depths, knots, radii and
handles; and if both trees have leaves, those of one are those of the other in another size. -/
theorem grow_variants (r : Recipe) :
    (∀ seed : UInt64,
      (∀ e, ofRecipe { r with seed := seed } = .error e ↔ ofRecipe r = .error e) ∧
      ∀ p, ofRecipe r = .ok p →
        ∃ p', ofRecipe { r with seed := seed } = .ok p' ∧ p'.grow = p.growWith seed) ∧
    ∀ d : Dress, r.check = .ok () → (r.dress d).check = .ok () →
      (∀ e, ofRecipe (r.dress d) = .error e ↔ ofRecipe r = .error e) ∧
      ∀ p, ofRecipe r = .ok p → ∃ p', ofRecipe (r.dress d) = .ok p' ∧
        (∀ e, p'.grow = .error e ↔ p.grow = .error e) ∧
        ∀ t, p.grow = .ok t → ∃ t', p'.grow = .ok t' ∧
          t'.symbolCount = t.symbolCount ∧ t'.trace = t.trace ∧
          t'.geometry.branches = t.geometry.branches.map (Branch.withBevel d.bevelDepth) ∧
          (r.addLeaves = true → d.addLeaves = true →
            t'.geometry.leaves = t.geometry.leaves.map (LeafInstance.withScale d.leafSize)) := by
  refine ⟨fun seed => ?_, fun d hr hd => ?_⟩
  · have hplan : ofRecipe { r with seed := seed } = _ := ofRecipe_eq_map (r := r) rfl rfl rfl
    refine ⟨fun e => by rw [hplan, map_eq_error_iff], fun p hp => ?_⟩
    obtain ⟨rfl, -⟩ := checks_of_ofRecipe hp
    exact ⟨p.reseed seed, hplan.trans (by rw [hp]; rfl), grow_reseed p seed⟩
  · have hplan : ofRecipe (r.dress d) = _ := ofRecipe_eq_map (hd.trans hr.symm) rfl rfl
    refine ⟨fun e => by rw [hplan, map_eq_error_iff], fun p hp => ?_⟩
    obtain ⟨rfl, -, -, -, hturtle, hassembly⟩ := checks_of_ofRecipe hp
    have hp' : ofRecipe (p.recipe.dress d) = .ok (p.dress d) := hplan.trans (by rw [hp]; rfl)
    obtain ⟨-, -, -, -, -, hdress⟩ := checks_of_ofRecipe hp'
    have hgrow : (p.dress d).grow = p.grow.map fun t => t.dress d p.recipe.seed :=
      growWith_dress hturtle hassembly hdress p.recipe.seed
    refine ⟨p.dress d, hp', fun e => by rw [hgrow, map_eq_error_iff], fun t ht => ?_⟩
    refine ⟨t.dress d p.recipe.seed, hgrow.trans (by rw [ht]; rfl), rfl, rfl, rfl,
      fun hleaves hleaves' => ?_⟩
    obtain ⟨w, -, -, -, rfl⟩ := (p.growWith_eq_ok_iff _ t).mp ht
    exact leaves_dress hleaves hleaves' p.recipe.seed w

/-- A forked trunk with one leaf, with another seed and with a larger leaf on thicker tubes. -/
theorem grow_variants_forked : ∃ (r : Recipe) (d : Dress) (p : Plan) (t : Tree),
    r.check = .ok () ∧ (r.dress d).check = .ok () ∧ ofRecipe r = .ok p ∧ p.grow = .ok t ∧
    (∃ p', ofRecipe { r with seed := 7 } = .ok p' ∧ p'.grow = p.growWith 7) ∧
    ∃ (p' : Plan) (t' : Tree), ofRecipe (r.dress d) = .ok p' ∧ p'.grow = .ok t' ∧
      t'.trace = t.trace ∧ t.geometry.leaves.length = 1 ∧
      t'.geometry.leaves = t.geometry.leaves.map (LeafInstance.withScale 1) := by
  let r : Recipe := { Recipe.usual with
    axiomText := "F[+F]", rulesText := "", iterations := 0 }
  let d : Dress := ⟨0.2, true, 1⟩
  have hr : r.check = .ok () := by decide +kernel
  have hd : (r.dress d).check = .ok () := by decide +kernel
  obtain ⟨t, htree, hone⟩ : ∃ t, r.grow = .ok t ∧ t.geometry.leaves.length = 1 :=
    exists_eq_ok_of_any _ (by decide +kernel)
  obtain ⟨p, hp, hgrow⟩ := bind_eq_ok_iff.mp htree
  obtain ⟨hseed, hdress⟩ := grow_variants r
  obtain ⟨p', hp', -, hgrown⟩ := (hdress d hr hd).2 p hp
  obtain ⟨t', ht', -, htrace, -, hleaves⟩ := hgrown t hgrow
  exact ⟨r, d, p, t, hr, hd, hp, hgrow, (hseed 7).2 p hp, p', t', hp', ht', htrace, hone,
    hleaves rfl rfl⟩

end Plan

end Arbor
