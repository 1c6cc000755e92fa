import Arbor.Proofs.Recipe.Keys
import Arbor.Proofs.Tree.Safety

/-!
# Presets on any recipe

A preset is checked once, on the usual recipe, and used on any recipe.  The two agree because every
check of a recipe reads either choices that a preset makes or choices that it leaves alone.  Those
it leaves alone pass their checks in every recipe that can be used (`settled_of_check`), and with
them out of the way the check of a recipe under a preset is the same on all recipes
(`check_apply_congr`), down to the first failure.
-/

namespace Arbor

/-- A preset that passes has a key. -/
lemma Preset.key_of_check {p : Preset} (h : p.check = .ok ()) :
    (Text.trim p.key.toList).isEmpty = false := by
  rw [Preset.check, throw_ite_eq_ok_iff] at h
  simpa using h.1

namespace Recipe

variable {r s : Recipe} {p : Preset}

/-! ## What a preset leaves alone -/

/-- The same variation, leaves, roll, direction of the tropism and ceiling: all that is not a
matter of the shape. -/
structure SameRun (r s : Recipe) : Prop where
  seed : r.seed = s.seed
  addLeaves : r.addLeaves = s.addLeaves
  leafSize : r.leafSize = s.leafSize
  branchRoll : r.branchRoll = s.branchRoll
  tropismDirection : r.tropismDirection = s.tropismDirection
  maxSymbols : r.maxSymbols = s.maxSymbols

lemma sameRun_apply (r : Recipe) (p : Preset) : (r.apply p).SameRun r :=
  ⟨rfl, rfl, rfl, rfl, rfl, rfl⟩

/-- A preset makes the same choices whatever was chosen before. -/
lemma apply_apply (r : Recipe) (a p : Preset) : (r.apply a).apply p = r.apply p := rfl

/-- The choices that no preset makes pass their checks. -/
structure Settled (r : Recipe) : Prop where
  ceiling : ¬ (r.maxSymbols = 0 ∨ Limits.ceiling < r.maxSymbols)
  direction : ¬ (¬ r.tropismDirection.isFinite ∨ r.tropismDirection.length < 1e-6)
  leaves : (if r.addLeaves then Check.positive .leafSize r.leafSize
    else Check.nonNegative .leafSize r.leafSize) = .ok ()

lemma settled_of_check (h : r.check = .ok ()) : r.Settled := by
  simp only [check, throw_ite_eq_ok_iff, check_bind_eq_ok_iff] at h
  obtain ⟨-, -, hceiling, hturtle, hassembly⟩ := h
  simp only [Turtle.Settings.check, check_bind_eq_ok_iff, throw_ite_eq_ok_iff] at hturtle
  obtain ⟨-, -, -, -, -, -, -, -, -, -, hdirection, -⟩ := hturtle
  rw [Assembly.Settings.check, check_bind_eq_ok_iff] at hassembly
  exact ⟨hceiling, hdirection, hassembly.2⟩

lemma settled_usual : usual.Settled := settled_of_check (by decide +kernel)

/-! ## The check under a preset -/

/-- The turtle under a preset is checked alike if both directions can be bent toward. -/
lemma turtle_check_apply_congr (hr : r.Settled) (hs : s.Settled) :
    (r.apply p).turtle.check = (s.apply p).turtle.check := by
  simp only [Turtle.Settings.check, turtle, apply, hr.direction, hs.direction, if_false]

/-- Of the assembly under a preset only the thickness is still to be checked. -/
lemma assembly_check_apply (hr : r.Settled) :
    (r.apply p).assembly.check = Check.positive .bevelDepth p.bevelDepth := by
  have hbevel : (r.apply p).assembly.bevelDepth = p.bevelDepth := rfl
  rw [Assembly.Settings.check, hbevel]
  cases Check.positive .bevelDepth p.bevelDepth with
  | error e => rfl
  | ok _ => exact hr.leaves

/-- On two recipes a preset passes, or fails for the same reason. -/
lemma check_apply_congr (hr : r.Settled) (hs : s.Settled) :
    (r.apply p).check = (s.apply p).check := by
  have hturtle := turtle_check_apply_congr (p := p) hr hs
  simp only [check, hturtle, assembly_check_apply hr, assembly_check_apply hs]
  -- The preset is opened last, since the equations above are about recipes under it.
  simp only [apply, hr.ceiling, hs.ceiling, if_false]

/-- To plan a recipe under a preset is to check the preset. -/
lemma map_ofRecipe_apply (hkey : (Text.trim p.key.toList).isEmpty = false) (hr : r.Settled) :
    (Plan.ofRecipe (r.apply p)).map (fun _ => ()) = p.check := by
  have hcheck : (r.apply p).check = (ofPreset p).check := check_apply_congr hr settled_usual
  have hrules : Productions.ofText (r.apply p).rulesText = p.productions := rfl
  rw [Plan.ofRecipe, Preset.check, hcheck, hrules, hkey]
  cases (ofPreset p).check with
  | error e => rfl
  | ok _ =>
    cases p.productions with
    | error e => rfl
    | ok _ => rfl

/-! ## The outcome -/

/-- A plan is made exactly if the preset passes. -/
lemma exists_ofRecipe_apply_iff (hkey : (Text.trim p.key.toList).isEmpty = false)
    (hr : r.Settled) : (∃ plan, Plan.ofRecipe (r.apply p) = .ok plan) ↔ p.check = .ok () := by
  rw [← map_ofRecipe_apply hkey hr, map_eq_ok_iff]
  simp only [and_true]

lemma ofRecipe_apply_eq_error_iff (hkey : (Text.trim p.key.toList).isEmpty = false)
    (hr : r.Settled) (e : Failure) :
    Plan.ofRecipe (r.apply p) = .error e ↔ p.check = .error e := by
  rw [← map_ofRecipe_apply hkey hr, map_eq_error_iff]

/-- **A preset is checked as it will be used.**  Put a preset on a recipe that can be used.  If its
key is not blank, the result can be planned exactly if the preset passes its own check, and where
one of the two fails the other fails for the same reason.  On any recipe the preset leaves alone
what is not a matter of the shape, and replaces all that an earlier preset has chosen.  So no preset
of an accepted catalog makes a recipe that can be used into one that cannot. -/
theorem plan_of_preset (g : Recipe) (p : Preset) :
    ((Text.trim p.key.toList).isEmpty = false → g.check = .ok () →
      ((∃ plan, Plan.ofRecipe (g.apply p) = .ok plan) ↔ p.check = .ok ()) ∧
      ∀ e, Plan.ofRecipe (g.apply p) = .error e ↔ p.check = .error e) ∧
    (g.apply p).SameRun g ∧
    (∀ a : Preset, (g.apply a).apply p = g.apply p) ∧
    ∀ c : Catalog, c.Accepted → p ∈ c.presets → g.check = .ok () →
      (g.apply p).check = .ok () ∧ ∃ plan, Plan.ofRecipe (g.apply p) = .ok plan := by
  refine ⟨fun hkey hg => ⟨exists_ofRecipe_apply_iff hkey (settled_of_check hg),
      ofRecipe_apply_eq_error_iff hkey (settled_of_check hg)⟩,
    sameRun_apply g p, fun a => apply_apply g a p, fun c hc hp hg => ?_⟩
  have hpreset : p.check = .ok () := hc.check hp
  obtain ⟨plan, hplan⟩ :=
    (exists_ofRecipe_apply_iff (Preset.key_of_check hpreset) (settled_of_check hg)).mpr hpreset
  exact ⟨(check_bind_eq_ok_iff.mp hplan).1, plan, hplan⟩

/-- A recipe without leaves whose tropism pulls sideways, for short words. -/
def bare : Recipe :=
  { usual with
    seed := 7
    addLeaves := false
    leafSize := 0
    branchRoll := false
    tropismDirection := .unitX
    maxSymbols := 500 }

/-- A preset whose steps get longer. -/
def swelling : Preset := .shaped "SWELL" "Swelling" "F" "F:FF" 2 20 1.5 0.9

/-- On the bare recipe the swelling preset fails as it fails its own check, and every preset of the
shipped catalog gives a plan. -/
theorem plan_of_preset_bare : bare.check = .ok () ∧ Catalog.shipped.Accepted ∧
    Plan.ofRecipe (bare.apply swelling) =
      .error (.invalidField .lengthDecay (.notDecay 1.5)) ∧
    (bare.apply swelling).SameRun bare ∧
    ∀ p ∈ Catalog.shipped.presets, ∃ plan, Plan.ofRecipe (bare.apply p) = .ok plan := by
  have hbare : bare.check = .ok () := by decide +kernel
  have hshipped : Catalog.shipped.Accepted :=
    .inl ⟨Catalog.shipped.presets, by decide +kernel⟩
  obtain ⟨hswelling, hrun, -, -⟩ := plan_of_preset bare swelling
  refine ⟨hbare, hshipped, ?_, hrun, fun p hp => ?_⟩
  · exact ((hswelling (by decide +kernel) hbare).2 _).mpr (by decide +kernel)
  · exact ((plan_of_preset bare p).2.2.2 _ hshipped hp hbare).2

end Recipe

end Arbor
