import Arbor.Proofs.Session.Summary
import Arbor.Proofs.Tree.Extent

/-!
# What a summary is about

`lastGrown` is kept beside a run: the recipe of the last growth that succeeded.  The tree of a
session is always the one that this recipe grows (`tree_run`), but the summary puts the current
recipe beside it.  So it is the summary of the last growth exactly if the axiom, the iterations and
the seed are as they were then (`summary_run`), and a choice made after the growth shows in it
(`exists_summary_not_of_growth`).
-/

namespace Arbor.Session

open Number Text Text.Json

variable (read : String → Except Failure Recipe)

/-- A session and the recipe of the last growth that succeeded, after one more operation. -/
def observe : Session × Option Recipe → Operation → Session × Option Recipe
  | (s, last), op =>
    (s.next read op,
      match op, s.grow with
      | .grow, .ok _ => some s.recipe
      | _, _ => last)

/-- The recipe of the last growth of some operations that succeeded. -/
def lastGrown (ops : List Operation) : Option Recipe :=
  (ops.foldl (observe read) (start, none)).2

lemma foldl_observe (ops : List Operation) :
    ops.foldl (observe read) (start, none) = (run read ops, lastGrown read ops) := by
  have hrun : (ops.foldl (observe read) (start, none)).1 = run read ops := by
    induction ops using List.reverseRecOn with
    | nil => rfl
    | append_singleton ops op ih =>
      rw [List.foldl_append, run_concat, ← ih]
      rfl
  exact Prod.ext hrun rfl

lemma withMeshes_tree (s : Session) : s.withMeshes.2.tree = s.tree := by
  unfold withMeshes
  cases s.meshes with
  | some m => rfl
  | none => cases h : s.tree <;> simp [h]

/-- A growth that succeeds is remembered with its recipe. -/
lemma observe_of_grow_eq_ok {s s' : Session} (last : Option Recipe) (h : s.grow = .ok s') :
    observe read (s, last) .grow = (s', some s.recipe) := by
  have hnext : s.next read .grow = s' := by simp [next, perform, h]
  simp [observe, hnext, h]

/-- Any other operation keeps what is remembered, and the tree. -/
lemma observe_of_forall_ne (s : Session) (last : Option Recipe) {op : Operation}
    (h : op = .grow → ∀ s', s.grow ≠ .ok s') :
    (observe read (s, last) op).2 = last ∧ (s.next read op).tree = s.tree := by
  by_cases hop : op = .grow
  · subst hop
    cases hgrow : s.grow with
    | error e => simp [observe, next, perform, hgrow]
    | ok s' => exact absurd hgrow (h rfl s')
  · refine ⟨?_, ?_⟩
    · cases op with
      | grow => exact absurd rfl hop
      | _ => rfl
    · unfold next
      cases hs : s.perform read op with
      | error e => rfl
      | ok s' =>
        obtain ⟨r, rfl⟩ | ⟨hgrow, -⟩ | rfl := perform_cases hs
        · rfl
        · exact absurd hgrow hop
        · exact withMeshes_tree s

lemma lastGrown_concat (ops : List Operation) (op : Operation) :
    lastGrown read (ops ++ [op]) = (observe read (run read ops, lastGrown read ops) op).2 := by
  rw [← foldl_observe, lastGrown, List.foldl_append]
  rfl

/-- The tree of a session is the one that the last recipe grows. -/
theorem tree_run (ops : List Operation) :
    (lastGrown read ops = none ∧ (run read ops).tree = none) ∨
      ∃ r t, lastGrown read ops = some r ∧ r.grow = .ok t ∧ (run read ops).tree = some t := by
  induction ops using List.reverseRecOn with
  | nil => exact .inl ⟨rfl, rfl⟩
  | append_singleton ops op ih =>
    rw [lastGrown_concat, run_concat]
    by_cases hgrow : op = .grow ∧ ∃ s', (run read ops).grow = .ok s'
    · obtain ⟨rfl, s', hs'⟩ := hgrow
      obtain ⟨t, ht, rfl⟩ := grow_eq_ok_iff.mp hs'
      rw [observe_of_grow_eq_ok read _ hs']
      refine .inr ⟨_, t, rfl, ht, ?_⟩
      simp [next, perform, hs']
    · obtain ⟨hlast, htree⟩ := observe_of_forall_ne read (run read ops) (lastGrown read ops)
        fun hop s' hs' => hgrow ⟨hop, s', hs'⟩
      rw [hlast, htree]
      exact ih

/-! ## The summary after a growth -/

variable {read}

/-- The text of a summary up to the members of the tree. -/
lemma toList_summary_eq {s : Session} {t : Tree} (h : s.tree = some t) : s.summary.toList =
    "\x7b\"axiom\":\"".toList ++ (escape s.recipe.axiomText.toList ++ '"' ::
      (",\"iterations\":".toList ++ ((toString s.recipe.iterations).toList ++ ',' ::
        ("\"seed\":".toList ++ ((toString s.recipe.seed.toNat).toList ++ ',' ::
          ([','].intercalate ((treeMembers t).map Member.written) ++ ['\x7d'])))))) := by
  have hrest : (treeMembers t).map Member.written ≠ [] := by simp [treeMembers]
  rw [toList_summary h, members, List.map_append, recipeMembers]
  simp only [List.map_cons, List.map_nil, List.cons_append, List.nil_append,
    List.intercalate_cons_cons, List.intercalate_cons_of_ne_nil hrest, Member.written, member,
    count, List.append_assoc]
  rfl

/-- What the summary shows of a recipe. -/
theorem summary_inj {s s' : Session} {t : Tree} (h : s.tree = some t) (h' : s'.tree = some t) :
    s.summary = s'.summary ↔ s.recipe.axiomText = s'.recipe.axiomText ∧
      s.recipe.iterations = s'.recipe.iterations ∧ s.recipe.seed = s'.recipe.seed := by
  rw [← String.toList_inj, toList_summary_eq h, toList_summary_eq h']
  constructor
  · intro htext
    obtain ⟨hword, htext⟩ := escape_append_injective (List.append_cancel_left htext)
    obtain ⟨hiterations, htext⟩ :=
      Decimal.toString_append_injective (List.append_cancel_left htext)
    obtain ⟨hseed, -⟩ := Decimal.toString_append_injective (List.append_cancel_left htext)
    exact ⟨String.toList_inj.mp hword, hiterations, UInt64.toNat_inj.mp hseed⟩
  · rintro ⟨hword, hiterations, hseed⟩
    rw [hword, hiterations, hseed]

/-- **What a summary is about.**  After operations of which some growth succeeded, the summary puts
the current recipe beside the tree that the recipe of the last such growth grows.  It is the summary
right after that growth exactly if the axiom, the iterations and the seed are the same in both
recipes. -/
theorem summary_run {ops : List Operation} {r : Recipe} (h : lastGrown read ops = some r) :
    ∃ t, r.grow = .ok t ∧
      (run read ops).summary = summary ⟨(run read ops).recipe, some t, none⟩ ∧
      ((run read ops).summary = summary ⟨r, some t, none⟩ ↔
        (run read ops).recipe.axiomText = r.axiomText ∧
          (run read ops).recipe.iterations = r.iterations ∧
          (run read ops).recipe.seed = r.seed) := by
  obtain ⟨hnone, -⟩ | ⟨r', t, hsome, ht, htree⟩ := tree_run read ops
  · rw [h] at hnone
    cases hnone
  · obtain rfl : r = r' := by
      rw [h] at hsome
      exact Option.some.inj hsome
    refine ⟨t, ht, ?_, summary_inj htree rfl⟩
    exact (summary_inj htree rfl).mpr ⟨rfl, rfl, rfl⟩

/-- A growth, and then choices that the summary does not show and a growth that fails. -/
theorem summary_run_kept :
    let ops : List Operation :=
      [.setAxiom "F", .setRules "", .setIterations 0, .grow, .setAngle 30, .setAxiom "", .grow,
        .setAxiom "F"]
    ∃ r t, lastGrown Recipe.ofDocument ops = some r ∧ r.grow = .ok t ∧
      (run Recipe.ofDocument ops).summary = summary ⟨r, some t, none⟩ := by
  intro ops
  have hkept : (lastGrown Recipe.ofDocument ops).any (fun r =>
      (run Recipe.ofDocument ops).recipe.axiomText = r.axiomText ∧
        (run Recipe.ofDocument ops).recipe.iterations = r.iterations ∧
          (run Recipe.ofDocument ops).recipe.seed = r.seed) = true := by
    decide +kernel
  obtain ⟨r, hr, hsame⟩ := (Option.any_eq_true _ _).mp hkept
  obtain ⟨t, ht, -, hsummary⟩ := summary_run hr
  exact ⟨r, t, hr, ht, hsummary.mpr (of_decide_eq_true hsame)⟩

/-- A new axiom shows in the summary before the next growth. -/
theorem exists_summary_not_of_growth : ¬ ∀ (ops : List Operation) (r : Recipe),
    lastGrown Recipe.ofDocument ops = some r → ∃ t, r.grow = .ok t ∧
      (run Recipe.ofDocument ops).summary = summary ⟨r, some t, none⟩ := by
  intro h
  let ops : List Operation :=
    [.setAxiom "F", .setRules "", .setIterations 0, .grow, .setAxiom "FF"]
  have hchanged : (lastGrown Recipe.ofDocument ops).any (fun r =>
      (run Recipe.ofDocument ops).recipe.axiomText ≠ r.axiomText) = true := by
    decide +kernel
  obtain ⟨r, hr, hne⟩ := (Option.any_eq_true _ _).mp hchanged
  obtain ⟨t, ht, hsummary⟩ := h ops r hr
  obtain ⟨hnone, -⟩ | ⟨r', t', hr', ht', htree⟩ := tree_run Recipe.ofDocument ops
  · rw [hr] at hnone
    cases hnone
  · rw [hr] at hr'
    cases hr'
    rw [ht] at ht'
    cases ht'
    exact of_decide_eq_true hne ((summary_inj htree rfl).mp hsummary).1

/-- **The summary of a run.**  If the tree was grown with a first length of `1e30` at most, and the
axiom has no control character but those that are escaped, the summary is a JSON text. -/
theorem value_summary_run {ops : List Operation} {r : Recipe} (h : lastGrown read ops = some r)
    (hlength : r.initialLength ≤ 1e30)
    (htext : ∀ c ∈ (run read ops).recipe.axiomText.toList, Covered c) :
    Value (run read ops).summary.toList (run read ops).summaryJson := by
  obtain ⟨hnone, -⟩ | ⟨r', t, hsome, ht, htree⟩ := tree_run read ops
  · rw [h] at hnone
    cases hnone
  · rw [h] at hsome
    cases hsome
    obtain ⟨p, hp, hgrow⟩ := bind_eq_ok_iff.mp ht
    have hplaces := Plan.finitePlaces_of_growWith hp hgrow hlength
    refine value_summary htree ⟨htext, fun b hb x hx => ?_⟩
    obtain ⟨hlow, hhigh⟩ := hplaces.finite_bounds hb
    rw [isFinite_iff]
    simp only [coordinates, List.mem_cons, List.not_mem_nil, or_false] at hx
    rcases hx with rfl | rfl | rfl | rfl | rfl | rfl
    · exact hlow.x
    · exact hlow.y
    · exact hlow.z
    · exact hhigh.x
    · exact hhigh.y
    · exact hhigh.z

end Arbor.Session
