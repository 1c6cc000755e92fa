import Arbor.Proofs.Tree.Growth
import Arbor.Session

/-!
# Runs of a session

A run is a sequence of operations from the start of a session, where an operation that fails leaves
the session as it was.  What an operation can do is said once (`perform_cases`): it changes the
recipe and nothing else, or puts a tree that the recipe grows in the place of the one before, or
keeps the meshes.

So in every session that a run reaches the tree is one that some recipe grew, and the meshes, if
they are kept, are those of the tree (`Coherent`, `Reachable.coherent`).
-/

namespace Arbor.Session

/-! ## Operations -/

/-- What can be asked of a session.  The four buffers are asked for through the meshes, which are
kept; all other questions are answered by `look`, without a change. -/
inductive Operation where
  | applyPreset (key : String)
  | configure (text : String)
  | setAxiom (text : String)
  | setRules (text : String)
  | setIterations (n : Int)
  | setAngle (degrees : Float32)
  | setSeed (seed : UInt32)
  | setAddLeaves (add : Bool)
  | grow
  | look
  | branchVertices
  | branchIndices
  | leafVertices
  | leafIndices

variable (read : String → Except Failure Recipe)

/-- The session that an operation leads to, if it does not fail. -/
def perform (s : Session) : Operation → Except Failure Session
  | .applyPreset key => s.applyPreset key
  | .configure text => s.configure read text
  | .setAxiom text => .ok (s.setAxiom text)
  | .setRules text => .ok (s.setRules text)
  | .setIterations n => s.setIterations n
  | .setAngle degrees => .ok (s.setAngle degrees)
  | .setSeed seed => .ok (s.setSeed seed)
  | .setAddLeaves add => .ok (s.setAddLeaves add)
  | .grow => s.grow
  | .look => .ok s
  | .branchVertices => .ok s.branchVertices.2
  | .branchIndices => .ok s.branchIndices.2
  | .leafVertices => .ok s.leafVertices.2
  | .leafIndices => .ok s.leafIndices.2

/-- The session after an operation: an operation that fails leaves it as it was. -/
def next (s : Session) (op : Operation) : Session :=
  match s.perform read op with
  | .ok s' => s'
  | .error _ => s

/-- The session after some operations from the start. -/
def run (ops : List Operation) : Session := ops.foldl (next read) start

/-- Some operations lead to the session. -/
def Reachable (s : Session) : Prop := ∃ ops, s = run read ops

@[simp] lemma run_nil : run read [] = start := rfl

@[simp] lemma run_concat (ops : List Operation) (op : Operation) :
    run read (ops ++ [op]) = (run read ops).next read op := by
  simp [run]

/-! ## What an operation does -/

variable {read}

lemma grow_eq_ok_iff {s s' : Session} : s.grow = .ok s' ↔
    ∃ t, s.recipe.grow = .ok t ∧ s' = { s with tree := some t, meshes := none } := by
  rw [grow, bind_eq_ok_iff]
  refine exists_congr fun t => and_congr_right fun _ => ?_
  exact ⟨fun h => by cases h; rfl, fun h => by rw [h]; rfl⟩

/-- An operation that succeeds changes the recipe alone, grows a tree or keeps the meshes. -/
lemma perform_cases {s s' : Session} {op : Operation} (h : s.perform read op = .ok s') :
    (∃ r, s' = { s with recipe := r }) ∨
      (op = .grow ∧ ∃ t, s.recipe.grow = .ok t ∧ s' = { s with tree := some t, meshes := none }) ∨
      s' = s.withMeshes.2 := by
  cases op with
  | applyPreset key =>
    obtain ⟨preset, -, h⟩ := bind_eq_ok_iff.mp h
    cases h
    exact .inl ⟨_, rfl⟩
  | configure text =>
    obtain ⟨recipe, -, h⟩ := bind_eq_ok_iff.mp h
    cases h
    exact .inl ⟨_, rfl⟩
  | setIterations n =>
    rw [perform, setIterations] at h
    split at h
    · cases h
    · cases h
      exact .inl ⟨_, rfl⟩
  | grow => exact .inr (.inl ⟨rfl, grow_eq_ok_iff.mp h⟩)
  | branchVertices | branchIndices | leafVertices | leafIndices =>
    cases h
    exact .inr (.inr rfl)
  | setAxiom | setRules | setAngle | setSeed | setAddLeaves | look =>
    cases h
    exact .inl ⟨_, rfl⟩

/-! ## Coherence -/

/-- Some recipe grew the tree, and the meshes that are kept are those of the tree. -/
structure Coherent (s : Session) : Prop where
  grown : ∀ t, s.tree = some t → ∃ r : Recipe, r.grow = .ok t
  cached : ∀ m, s.meshes = some m → s.tree.map meshesOf = some m

lemma coherent_start : start.Coherent where
  grown := by
    intro t h
    cases h
  cached := by
    intro m h
    cases h

/-- The meshes that are handed out are those of the tree, whether they were kept or not. -/
lemma Coherent.withMeshes_eq {s : Session} (h : s.Coherent) :
    s.withMeshes = (s.tree.map meshesOf, { s with meshes := s.tree.map meshesOf }) := by
  obtain ⟨recipe, tree, meshes⟩ := s
  cases meshes with
  | some m =>
    have hm : tree.map meshesOf = some m := h.cached m rfl
    simp [withMeshes, hm]
  | none =>
    cases tree with
    | none => rfl
    | some t => rfl

lemma Coherent.perform {s s' : Session} {op : Operation} (h : s.Coherent)
    (hop : s.perform read op = .ok s') : s'.Coherent := by
  obtain ⟨r, rfl⟩ | ⟨-, t, ht, rfl⟩ | rfl := perform_cases hop
  · exact ⟨h.grown, h.cached⟩
  · refine ⟨fun t' ht' => ⟨s.recipe, ?_⟩, fun m hm => ?_⟩
    · cases ht'
      exact ht
    · cases hm
  · rw [h.withMeshes_eq]
    exact ⟨h.grown, fun m hm => hm⟩

lemma Coherent.next {s : Session} (h : s.Coherent) (op : Operation) :
    (s.next read op).Coherent := by
  unfold Session.next
  cases hop : s.perform read op with
  | ok s' => exact h.perform hop
  | error e => exact h

lemma Reachable.coherent {s : Session} (h : Reachable read s) : s.Coherent := by
  obtain ⟨ops, rfl⟩ := h
  induction ops using List.reverseRecOn with
  | nil => exact coherent_start
  | append_singleton ops op ih =>
    rw [run_concat]
    exact ih.next op

end Arbor.Session
