import Arbor.Proofs.Session.Calls

/-!
# Kept meshes

The meshes of a session are kept from the first time they are asked for until the next growth that
succeeds.  `freshMeshes` is the program that keeps none and makes them of the tree every time.  The
meshes that are kept are always those of the tree that is there, so no sequence of calls can tell
the two programs apart, and buffers that are handed out with no growth between them are parts of the
same two meshes (`meshes_of_calls`).
-/

namespace Arbor.Session

open InPlace

/-- The tubes of a tree, with twelve samples for each span and sixteen sides, and a blade of length
one at each of its leaves; two empty meshes without a tree. -/
def drawn (tree : Option Tree) : Mesh × Mesh :=
  tree.elim (.empty, .empty) fun t =>
    (t.geometry.branchMesh 12 16, t.geometry.leafMesh (Blade.mesh 1))

/-- The meshes of the tree, made anew, whatever the session keeps. -/
def freshMeshes : InPlace (Option (Mesh × Mesh)) := do
  let s ← get
  return some (drawn s.tree)

/-- The four buffers of a session are those of two meshes. -/
structure HandsOut (s : Session) (m : Mesh × Mesh) : Prop where
  branchVertices : s.branchVertices.1 = m.1.vertexData
  branchIndices : s.branchIndices.1 = m.1.indices
  leafVertices : s.leafVertices.1 = m.2.vertexData
  leafIndices : s.leafIndices.1 = m.2.indices

variable {read : String → Except Failure Recipe} {s : Session}

/-- A part of the meshes that are found, and an empty one without a tree. -/
lemma Coherent.elim_withMeshes {α : Type} (h : s.Coherent) (part : Mesh × Mesh → Array α)
    (hempty : part (.empty, .empty) = #[]) :
    s.withMeshes.1.elim #[] part = part (drawn s.tree) := by
  rw [h.withMeshes_eq]
  cases s.tree with
  | none => exact hempty.symm
  | some t => rfl

lemma Coherent.handsOut (h : s.Coherent) : s.HandsOut (drawn s.tree) where
  branchVertices := h.elim_withMeshes (fun m => m.1.vertexData) rfl
  branchIndices := h.elim_withMeshes (fun m => m.1.indices) rfl
  leafVertices := h.elim_withMeshes (fun m => m.2.vertexData) rfl
  leafIndices := h.elim_withMeshes (fun m => m.2.indices) rfl

/-! ## One call -/

/-- A buffer that is made anew is the one that is kept. -/
lemma Coherent.on_buffer {α : Type} (h : s.Coherent) {part : Mesh × Mesh → Array α}
    (hempty : part (.empty, .empty) = #[]) (answer : List α → Answer)
    (meshes : Option (Mesh × Mesh)) :
    (buffer freshMeshes part answer).on { s with meshes := meshes } =
      (((buffer keptMeshes part answer).on s).1,
        { ((buffer keptMeshes part answer).on s).2 with meshes := meshes }) := by
  rw [Session.on_buffer, h.elim_withMeshes part hempty, h.withMeshes_eq]
  rfl

/-- Without kept meshes a call gives the same answer, and leaves the same recipe and tree. -/
lemma Coherent.on_program (h : s.Coherent) (read : String → Except Failure Recipe) (c : Call)
    (meshes : Option (Mesh × Mesh)) :
    ∃ meshes', (c.program read freshMeshes).on { s with meshes := meshes } =
      (((c.program read keptMeshes).on s).1,
        { ((c.program read keptMeshes).on s).2 with meshes := meshes' }) := by
  cases c with
  | choose c =>
    refine ⟨meshes, ?_⟩
    obtain ⟨f, hf⟩ := c.exists_on_program read
    rw [Call.program, on_bind, hf, Call.program, on_bind, hf]
    cases f s.recipe <;> rfl
  | grow =>
    cases hgrow : s.recipe.grow with
    | error e => exact ⟨meshes, by simp [Call.program, hgrow]⟩
    | ok t => exact ⟨none, by simp [Call.program, hgrow]⟩
  | ask q =>
    refine ⟨meshes, ?_⟩
    cases q with
    | branchVertices | branchIndices | leafVertices | leafIndices =>
      simp only [Call.program, Question.program]
      exact h.on_buffer rfl _ meshes
    | _ => rfl

/-! ## Sequences of calls -/

variable (read)

/-- The answers to some calls, each on the session that the one before it leaves. -/
def answers (meshes : InPlace (Option (Mesh × Mesh))) :
    Session → List Call → List (Except Failure Answer)
  | _, [] => []
  | s, c :: calls =>
    let (outcome, left) := (c.program read meshes).on s
    outcome :: answers meshes left calls

variable {read}

/-- What a call leaves behind is coherent if the session was. -/
lemma Coherent.after_call (h : s.Coherent) (c : Call) :
    ((c.program read keptMeshes).on s).2.Coherent := by
  rw [Call.on_program]
  exact h.next c.operation

lemma Coherent.answers_eq (h : s.Coherent) (meshes : Option (Mesh × Mesh)) (calls : List Call) :
    answers read keptMeshes s calls =
      answers read freshMeshes { s with meshes := meshes } calls := by
  induction calls generalizing s meshes with
  | nil => rfl
  | cons c calls ih =>
    obtain ⟨meshes', hfresh⟩ := h.on_program read c meshes
    rw [answers, answers, hfresh]
    exact congrArg _ (ih (h.after_call c) meshes')

lemma coherent_held (calls : List Call) : (held read keptMeshes calls).Coherent :=
  Reachable.coherent ⟨_, held_eq_run read calls⟩

/-- The tree stays as long as no growth succeeds. -/
lemma tree_held_append {calls more : List Call}
    (h : ∀ k, calls.length ≤ k → ¬ GrownAt read (calls ++ more) k) :
    (held read keptMeshes (calls ++ more)).tree = (held read keptMeshes calls).tree := by
  induction more using List.reverseRecOn with
  | nil => simp
  | append_singleton more c ih =>
    rw [← List.append_assoc] at h ⊢
    rw [tree_held_concat (h _ (by simp))]
    refine ih fun k hk hgrown => h k hk ?_
    exact (grownAt_append_of_lt hgrown.lt_length [c]).mpr hgrown

variable (read)

/-- **Kept meshes are those of the tree.**  After any calls there are no kept meshes, or there is a
tree and they are its tubes and its blades.  So all answers to all calls are those of a session that
makes the meshes anew each time; and as long as no growth succeeds, whatever else is called, the
buffers that are handed out are all of the same two meshes, which are empty without a tree. -/
theorem meshes_of_calls :
    (∀ (calls : List Call) (m : Mesh × Mesh), (held read keptMeshes calls).meshes = some m →
      ∃ t, (held read keptMeshes calls).tree = some t ∧
        m = (t.geometry.branchMesh 12 16, t.geometry.leafMesh (Blade.mesh 1))) ∧
    (∀ calls : List Call,
      answers read keptMeshes start calls = answers read freshMeshes start calls) ∧
    ∀ calls more : List Call, (∀ k, calls.length ≤ k → ¬ GrownAt read (calls ++ more) k) →
      (held read keptMeshes calls).HandsOut (drawn (held read keptMeshes calls).tree) ∧
      (held read keptMeshes (calls ++ more)).HandsOut
        (drawn (held read keptMeshes calls).tree) := by
  refine ⟨fun calls m hm => ?_, fun calls => coherent_start.answers_eq none calls,
    fun calls more h => ⟨(coherent_held calls).handsOut, ?_⟩⟩
  · have hcached := (coherent_held calls).cached m hm
    obtain ⟨t, ht, rfl⟩ := Option.map_eq_some_iff.mp hcached
    exact ⟨t, ht, rfl⟩
  · rw [← tree_held_append h]
    exact (coherent_held (calls ++ more)).handsOut

end Arbor.Session
