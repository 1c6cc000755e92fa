import Arbor.Proofs.Shape.Twists
import Arbor.Proofs.Tree.Growth
import Arbor.Proofs.Turtle.Sources
import Mathlib.Data.List.TakeWhile

/-!
# A plan can always be grown

What is checked before a plan is made covers every check of a growth, so a growth fails only by a
word above the limit, and every range that is drawn from has a draw (`growth_of_plan`).  The second
part compares two growths: the guarded one loses its source with the first range that has no draw,
and it ends with the same tree and with both of its sources.
-/

namespace Arbor

open Number Chance

/-! ## Every draw is possible -/

namespace Turtle

lemma answers_guarded {s : Settings} (h : s.Admissible) : Answers s Guarded.of where
  rotationJitter := Guarded.uniform_neg_of h.rotationJitter (by norm_num)
  lengthFactor x := by
    show (1 + (Source.uniform (Guarded.of x) (-s.lengthJitter) s.lengthJitter).1,
      (Source.uniform (Guarded.of x) (-s.lengthJitter) s.lengthJitter).2) = _
    rw [Guarded.uniform_neg_of h.lengthJitter (by norm_num)]
    rfl
  branchSpread := Guarded.uniform_neg_of h.branchSpread (by norm_num)
  branchRoll := Guarded.uniform_tau_of
  leafOffset x := by
    have huniform := Guarded.uniform_neg_of h.leafJitter (by norm_num)
    show (let (x, g) := Source.uniform (Guarded.of x) (-s.leafJitter) s.leafJitter
      let (y, g) := Source.uniform g (-s.leafJitter) s.leafJitter
      let (z, g) := Source.uniform g (-s.leafJitter) s.leafJitter
      ((⟨x, y, z⟩ : Vec3), g)) = _
    simp only [huniform, Prod.map, id]
    rfl

end Turtle

/-- A derivation within its number of passes fails only by a word above the limit. -/
lemma Productions.deriveFrom_eq_ok_or_overflow (p : Productions) (limit n : ℕ) :
    ∀ (i : ℕ) (w : Word), (∃ v, p.deriveFrom limit i n w = .ok v) ∨
      ∃ limit' required iteration,
        p.deriveFrom limit i n w = .error (.overflow limit' required iteration) := by
  induction n with
  | zero => exact fun i w => .inl ⟨w, rfl⟩
  | succ n ih =>
    intro i w
    rw [deriveFrom, pass]
    by_cases hlimit : limit < p.nextLength w
    · rw [if_pos hlimit]
      exact .inr ⟨_, _, _, rfl⟩
    · rw [if_neg hlimit]
      exact ih (i + 1) (p.nextWord w)

namespace Plan

variable (p : Plan)

/-- The growth of a plan from guarded sources: no tree is the answer if one of them is lost. -/
def growGuarded (seed : UInt64) : Except Failure (Option Tree) := do
  let word ← p.word
  let (trace, walked) ← Turtle.walk p.recipe.turtle word (Guarded.of (.ofSeed seed))
  let s : Assembly.Settings := { p.recipe.assembly with seed := seed }
  s.check
  let (placed, leaves) := Assembly.placeGuarded s trace.leaves
  return if walked.source.isSome && placed.source.isSome then
    some ⟨word.length, trace, Assembly.branches s.bevelDepth trace.segments, leaves⟩
  else none

variable {p}

lemma word_eq_ok_or_overflow (h : p.recipe.iterations ≤ Limits.usualPasses) :
    (∃ w, p.word = .ok w) ∨
      ∃ limit required iteration, p.word = .error (.overflow limit required iteration) := by
  have hpasses : ¬ p.recipe.limits.maxPasses < p.recipe.iterations := not_lt.mpr h
  rw [word, Productions.derive, if_neg hpasses]
  split_ifs
  · exact .inr ⟨_, _, _, rfl⟩
  · exact p.productions.deriveFrom_eq_ok_or_overflow _ _ _ _

/-- The checks of a growth are part of the check of the recipe. -/
lemma growWith_eq (hturtle : p.recipe.turtle.check = .ok ())
    (hassembly : p.recipe.assembly.check = .ok ()) (seed : UInt64) :
    p.growWith seed = p.word.map (p.treeOf seed) := by
  have hseed : ({ p.recipe.assembly with seed := seed } : Assembly.Settings).check = .ok () :=
    hassembly
  unfold growWith
  cases p.word with
  | error e => rfl
  | ok w =>
    rw [ok_bind, Turtle.walk_eq _ _ hturtle, ok_bind]
    dsimp only
    rw [Assembly.assemble, hseed]
    rfl

lemma growGuarded_eq (hturtle : p.recipe.turtle.check = .ok ())
    (hassembly : p.recipe.assembly.check = .ok ()) (seed : UInt64) :
    p.growGuarded seed = p.word.map fun w => some (p.treeOf seed w) := by
  have hseed : ({ p.recipe.assembly with seed := seed } : Assembly.Settings).check = .ok () :=
    hassembly
  have hanswers := Turtle.answers_guarded (Turtle.Settings.admissible_of_check hturtle)
  unfold growGuarded
  cases p.word with
  | error e => rfl
  | ok w =>
    have hwalk : Turtle.walk p.recipe.turtle w (Guarded.of (.ofSeed seed)) =
        .ok ((Turtle.after p.recipe.turtle (Seeded.ofSeed seed) w).trace,
          Guarded.of (Turtle.after p.recipe.turtle (Seeded.ofSeed seed) w).source) := by
      rw [Turtle.walk_map hanswers, Turtle.walk_eq _ _ hturtle]
      rfl
    obtain ⟨source, hplaced⟩ := Assembly.exists_placeGuarded_eq
      { p.recipe.assembly with seed := seed }
      (Turtle.after p.recipe.turtle (Seeded.ofSeed seed) w).trace.leaves
    rw [ok_bind, hwalk, ok_bind]
    dsimp only
    rw [hseed, ok_bind]
    show Except.ok (if _ && (Assembly.placeGuarded _ _).1.source.isSome then
      some (Tree.mk _ _ ⟨_, (Assembly.placeGuarded _ _).2⟩) else none) = Except.ok _
    rw [hplaced]
    rfl

/-! ## Plans of checked recipes -/

/-- A computation that has succeeded, computed up to a property of its answer. -/
lemma exists_eq_ok_of_any {ε α : Type} {x : Except ε α} (P : α → Prop) [DecidablePred P]
    (h : x.toOption.any (fun a => decide (P a)) = true) : ∃ a, x = .ok a ∧ P a := by
  cases x with
  | error e => cases h
  | ok a => exact ⟨a, rfl, of_decide_eq_true h⟩

lemma checks_of_ofRecipe {r : Recipe} (h : ofRecipe r = .ok p) :
    p.recipe = r ∧ p.start = Word.ofText r.axiomText ∧
      (Text.trim r.axiomText.toList).isEmpty = false ∧ r.iterations ≤ Limits.usualPasses ∧
        r.turtle.check = .ok () ∧ r.assembly.check = .ok () := by
  rw [ofRecipe, check_bind_eq_ok_iff, bind_eq_ok_iff] at h
  obtain ⟨hcheck, productions, -, hp⟩ := h
  cases hp
  simp only [Recipe.check, throw_ite_eq_ok_iff, check_bind_eq_ok_iff] at hcheck
  obtain ⟨hblank, hpasses, -, hturtle, hassembly⟩ := hcheck
  exact ⟨rfl, rfl, by simpa using hblank, not_lt.mp hpasses, hturtle, hassembly⟩

/-- A plan grows the tree of its word. -/
lemma growWith_eq_ok {r : Recipe} {w : Word} (h : ofRecipe r = .ok p) (hw : p.word = .ok w)
    (seed : UInt64) : p.growWith seed = .ok (p.treeOf seed w) := by
  obtain ⟨rfl, -, -, -, hturtle, hassembly⟩ := checks_of_ofRecipe h
  rw [growWith_eq hturtle hassembly, hw]
  rfl

lemma ofChars_ne_nil {text : List Char} (h : (Text.trim text).isEmpty = false) :
    Word.ofChars text ≠ [] := by
  intro hempty
  rw [Word.ofChars, List.map_eq_nil_iff, List.filter_eq_nil_iff] at hempty
  have hblank : ∀ c ∈ text, Text.isBlank c = true := by
    intro c hc
    simpa using hempty c hc
  have htrim : Text.trim text = [] := by
    rw [Text.trim, Text.trimStart, List.dropWhile_eq_nil_iff.mpr hblank]
    rfl
  rw [htrim] at h
  cases h

/-! ## Strict growth -/

/-- A strict growth gives the tree of a growth, unless brackets of its word lack a partner. -/
lemma growStrict_eq (hturtle : p.recipe.turtle.check = .ok ())
    (hassembly : p.recipe.assembly.check = .ok ()) :
    p.growStrict = p.grow.bind fun t =>
      if t.trace.warnings = [] then .ok t
      else .error (.unbalanced t.trace.unmatchedPops t.trace.unclosedPushes) := by
  rw [growStrict, grow, growWith_eq hturtle hassembly]
  cases p.word with
  | error e => rfl
  | ok w =>
    have htrace : (p.treeOf p.recipe.seed w).trace =
        (Turtle.after p.recipe.turtle (Seeded.ofSeed p.recipe.seed) w).trace := rfl
    have hwarns : (p.treeOf p.recipe.seed w).trace.Warns w := by
      rw [htrace, Turtle.Trace.Warns, Turtle.after_trace]
    rw [Except.map, ok_bind]
    show _ = if _ then _ else _
    rw [hwarns.ensureBalanced_eq, hwarns.unmatchedPops_eq, hwarns.unclosedPushes_eq]
    by_cases hempty : (p.treeOf p.recipe.seed w).trace.warnings = []
    · have hbalanced : (p.treeOf p.recipe.seed w).trace.isBalanced = true :=
        List.isEmpty_iff.mpr hempty
      rw [if_pos hbalanced, if_pos hempty]
      rfl
    · have hbalanced : ¬ (p.treeOf p.recipe.seed w).trace.isBalanced = true := fun hb =>
        hempty (List.isEmpty_iff.mp hb)
      rw [if_neg hbalanced, if_neg hempty]
      rfl

/-- **A plan can always be grown.**  A plan of a recipe has a symbol to start from, and with every
seed its growth gives a tree, unless a pass goes over the limit on symbols; no draw is asked from a
range that has none, so the guarded growth gives the same tree.  The strict growth gives the tree
exactly if it has no warnings; exactly if it has some, the failure is that of an unbalanced word;
and it passes on the failure of the growth. -/
theorem growth_of_plan {r : Recipe} (h : ofRecipe r = .ok p) :
    p.start ≠ [] ∧
    (∀ seed, (∃ t, p.growWith seed = .ok t) ∨
      ∃ limit required iteration,
        p.growWith seed = .error (.overflow limit required iteration)) ∧
    (∀ seed, p.growGuarded seed = (p.growWith seed).map some) ∧
    (∀ t, p.growStrict = .ok t ↔ p.grow = .ok t ∧ t.trace.warnings = []) ∧
    ((∃ pops pushes, p.growStrict = .error (.unbalanced pops pushes)) ↔
      ∃ t, p.grow = .ok t ∧ t.trace.warnings ≠ []) ∧
    ∀ e, p.grow = .error e → p.growStrict = .error e := by
  obtain ⟨hrecipe, hstart, hblank, hpasses, hturtle, hassembly⟩ := checks_of_ofRecipe h
  rw [← hrecipe] at hpasses hturtle hassembly
  have hgrow := growWith_eq hturtle hassembly
  have houtcome : ∀ seed, (∃ t, p.growWith seed = .ok t) ∨ ∃ limit required iteration,
      p.growWith seed = .error (.overflow limit required iteration) := by
    intro seed
    rw [hgrow seed]
    rcases word_eq_ok_or_overflow hpasses with ⟨w, hw⟩ | ⟨limit, required, iteration, hw⟩
    · rw [hw]
      exact .inl ⟨_, rfl⟩
    · rw [hw]
      exact .inr ⟨limit, required, iteration, rfl⟩
  refine ⟨?_, houtcome, ?_, ?_, ?_, ?_⟩
  · rw [hstart]
    exact ofChars_ne_nil hblank
  · intro seed
    rw [growGuarded_eq hturtle hassembly, hgrow seed]
    cases p.word <;> rfl
  · intro t
    rw [growStrict_eq hturtle hassembly]
    cases hg : p.grow with
    | error e => simp [Except.bind]
    | ok t' =>
      show (if t'.trace.warnings = [] then _ else _) = Except.ok t ↔ _
      split_ifs with hw
      · simp only [Except.ok.injEq]
        constructor
        · rintro rfl
          exact ⟨rfl, hw⟩
        · exact fun ht => ht.1
      · simp only [Except.ok.injEq, false_iff]
        rintro ⟨rfl, ht⟩
        exact hw ht
  · rw [growStrict_eq hturtle hassembly]
    rcases houtcome p.recipe.seed with ⟨t, ht⟩ | ⟨limit, required, iteration, ht⟩
    · rw [grow, ht]
      show (∃ pops pushes, (if t.trace.warnings = [] then _ else _) = Except.error _) ↔ _
      by_cases hw : t.trace.warnings = []
      · simp [hw]
      · simp [hw]
    · rw [grow, ht]
      simp [Except.bind]
  · intro e he
    rw [growStrict_eq hturtle hassembly, he]
    rfl

/-- A word with a closing bracket too many, grown with the usual variation. -/
theorem growth_of_plan_stray : ∃ p,
    ofRecipe { Recipe.usual with axiomText := "F[+X]]", rulesText := "X:F", iterations := 1 } =
        .ok p ∧
      p.start ≠ [] ∧ (∃ t, p.growGuarded p.recipe.seed = .ok (some t)) ∧
        ∃ pops pushes, p.growStrict = .error (.unbalanced pops pushes) := by
  let r : Recipe :=
    { Recipe.usual with axiomText := "F[+X]]", rulesText := "X:F", iterations := 1 }
  have hwarnings : r.grow.toOption.map (fun t => t.trace.warnings) = some [.unmatchedPop 5] := by
    decide +kernel
  cases hp : ofRecipe r with
  | error e =>
    have hgrow : r.grow = .error e := by
      rw [Recipe.grow, hp]
      rfl
    rw [hgrow] at hwarnings
    cases hwarnings
  | ok p =>
    have hgrow : r.grow = p.grow := by
      rw [Recipe.grow, hp]
      rfl
    obtain ⟨hstart, -, hguarded, -, hstrict, -⟩ := growth_of_plan hp
    rw [hgrow] at hwarnings
    cases ht : p.grow with
    | error e =>
      rw [ht] at hwarnings
      cases hwarnings
    | ok t =>
      rw [ht] at hwarnings
      have hw : t.trace.warnings = [.unmatchedPop 5] := Option.some.inj hwarnings
      have hne : t.trace.warnings ≠ [] := by
        rw [hw]
        exact List.cons_ne_nil _ _
      have htree : p.growGuarded p.recipe.seed = .ok (some t) := by
        rw [hguarded]
        show p.grow.map some = .ok (some t)
        rw [ht]
        rfl
      exact ⟨p, rfl, hstart, ⟨t, htree⟩, hstrict.mpr ⟨t, ht, hne⟩⟩

end Plan

end Arbor
