import Arbor.Proofs.Session.History

/-!
# Calls on a session in place

A host holds one session and changes it in place: a call assigns parts of the session one after the
other, and a failure ends it with what has been assigned until then.  `Call.program` writes every
call as such a program, so nothing in its type keeps a failed call from leaving a session half
changed.  None does: every program answers and leaves what the operations of a session do
(`Call.on_program`).

So a failed call changes nothing, a choice changes the recipe alone, a question changes the meshes
at most, and the tree is always that of the last growth that succeeded (`held_of_calls`).
-/

namespace Arbor.Session

/-! ## Programs in place -/

/-- A program that changes a session in place.  A failure keeps what was changed before it. -/
abbrev InPlace (α : Type) : Type := ExceptT Failure (StateM Session) α

namespace InPlace

variable {α β : Type}

/-- What a program answers on a session, and the session that it leaves. -/
def on (x : InPlace α) (s : Session) : Except Failure α × Session := (x.run.run s).run

@[simp] lemma on_pure (a : α) (s : Session) : on (pure a) s = (.ok a, s) := rfl

@[simp] lemma on_get (s : Session) : on (get : InPlace Session) s = (.ok s, s) := rfl

@[simp] lemma on_modify (f : Session → Session) (s : Session) :
    on (modify f : InPlace PUnit) s = (.ok ⟨⟩, f s) := rfl

@[simp] lemma on_throw (e : Failure) (s : Session) :
    on (throw e : InPlace α) s = (.error e, s) := rfl

@[simp] lemma on_liftM (x : Except Failure α) (s : Session) :
    on (liftM x : InPlace α) s = (x, s) := rfl

/-- The second program goes on with the session that the first one leaves, unless that fails. -/
@[simp] lemma on_bind (x : InPlace α) (f : α → InPlace β) (s : Session) : on (x >>= f) s =
    match on x s with
    | (.ok a, s') => on (f a) s'
    | (.error e, s') => (.error e, s') := by
  unfold on ExceptT.run StateT.run Id.run
  simp only [bind, ExceptT.bind, ExceptT.mk, StateT.bind, ExceptT.bindCont]
  cases x s with
  | mk a s' => cases a <;> rfl

@[simp] lemma on_map (f : α → β) (x : InPlace α) (s : Session) :
    on (f <$> x) s = ((on x s).1.map f, (on x s).2) := by
  have hbind : f <$> x = x >>= fun a => pure (f a) := map_eq_pure_bind f x
  rw [hbind, on_bind]
  cases on x s with
  | mk a s' => cases a <;> rfl

end InPlace

open InPlace

/-! ## Choices -/

/-- What can be chosen for the next growth. -/
inductive Choice where
  | preset (key : String)
  | document (text : String)
  | axiomText (text : String)
  | rulesText (text : String)
  | iterations (n : Int)
  | angle (degrees : Float32)
  | seed (n : UInt32)
  | addLeaves (add : Bool)

variable (read : String → Except Failure Recipe)

/-- A choice is looked up, read or checked before a part of the recipe is assigned. -/
def Choice.program : Choice → InPlace PUnit
  | .preset key => do
    let preset ← Catalog.shipped.find key
    modify fun s => { s with recipe := s.recipe.apply preset }
  | .document text => do
    let recipe ← read text
    modify fun s => { s with recipe := recipe }
  | .axiomText text => modify fun s => { s with recipe := { s.recipe with axiomText := text } }
  | .rulesText text => modify fun s => { s with recipe := { s.recipe with rulesText := text } }
  | .iterations n => do
    if n < 0 then throw (.invalidField .iterations (.negativeCount n))
    modify fun s => { s with recipe := { s.recipe with iterations := n.toNat } }
  | .angle degrees => modify fun s => { s with recipe := { s.recipe with angle := degrees } }
  | .seed n => modify fun s => { s with recipe := { s.recipe with seed := n.toUInt64 } }
  | .addLeaves add => modify fun s => { s with recipe := { s.recipe with addLeaves := add } }

/-- The operation of a choice. -/
def Choice.operation : Choice → Operation
  | .preset key => .applyPreset key
  | .document text => .configure text
  | .axiomText text => .setAxiom text
  | .rulesText text => .setRules text
  | .iterations n => .setIterations n
  | .angle degrees => .setAngle degrees
  | .seed n => .setSeed n
  | .addLeaves add => .setAddLeaves add

/-! ## Questions -/

/-- What a session can be asked for. -/
inductive Question where
  | recipe
  | tree
  | symbolCount
  | segmentCount
  | branchCount
  | leafCount
  | branchPoints (i : Nat)
  | branchDepth (i : Nat)
  | leafPlacements
  | warnings
  | summary
  | branchVertices
  | branchIndices
  | leafVertices
  | leafIndices

/-- What a call answers. -/
inductive Answer where
  | done
  | recipe (r : Recipe)
  | tree (t : Option Tree)
  | number (n : Int)
  | floats (xs : List Float32)
  | indices (is : List UInt32)
  | text (t : String)
  | texts (ts : List String)

/-- The meshes that are kept; if there are none they are made of the tree and kept from then on. -/
def keptMeshes : InPlace (Option (Mesh × Mesh)) := do
  let s ← get
  match s.meshes, s.tree with
  | some m, _ => return some m
  | none, none => return none
  | none, some t =>
    modify fun s => { s with meshes := some (meshesOf t) }
    return (← get).meshes

/-- A buffer of the meshes, which the given program finds, and an empty one without them. -/
def buffer {α : Type} (meshes : InPlace (Option (Mesh × Mesh))) (part : Mesh × Mesh → Array α)
    (answer : List α → Answer) : InPlace Answer := do
  let m ← meshes
  return answer (m.elim #[] part).toList

/-- A question reads the session, or looks for the meshes by the given program. -/
def Question.program (meshes : InPlace (Option (Mesh × Mesh))) : Question → InPlace Answer
  | .recipe => do return .recipe (← get).recipe
  | .tree => do return .tree (← get).tree
  | .symbolCount => do return .number (← get).symbolCount
  | .segmentCount => do return .number (← get).segmentCount
  | .branchCount => do return .number (← get).branchCount
  | .leafCount => do return .number (← get).leafCount
  | .branchPoints i => do return .floats ((← get).branchPoints i)
  | .branchDepth i => do return .number ((← get).branchDepth i)
  | .leafPlacements => do return .floats (← get).leafPlacements
  | .warnings => do return .texts (← get).warnings
  | .summary => do return .text (← get).summary
  | .branchVertices => buffer meshes (fun m => m.1.vertexData) .floats
  | .branchIndices => buffer meshes (fun m => m.1.indices) .indices
  | .leafVertices => buffer meshes (fun m => m.2.vertexData) .floats
  | .leafIndices => buffer meshes (fun m => m.2.indices) .indices

/-- The operation of a question. -/
def Question.operation : Question → Operation
  | .branchVertices => .branchVertices
  | .branchIndices => .branchIndices
  | .leafVertices => .leafVertices
  | .leafIndices => .leafIndices
  | _ => .look

/-- What a session answers to a question. -/
def Question.answer (s : Session) : Question → Answer
  | .recipe => .recipe s.recipe
  | .tree => .tree s.tree
  | .symbolCount => .number s.symbolCount
  | .segmentCount => .number s.segmentCount
  | .branchCount => .number s.branchCount
  | .leafCount => .number s.leafCount
  | .branchPoints i => .floats (s.branchPoints i)
  | .branchDepth i => .number (s.branchDepth i)
  | .leafPlacements => .floats s.leafPlacements
  | .warnings => .texts s.warnings
  | .summary => .text s.summary
  | .branchVertices => .floats s.branchVertices.1.toList
  | .branchIndices => .indices s.branchIndices.1.toList
  | .leafVertices => .floats s.leafVertices.1.toList
  | .leafIndices => .indices s.leafIndices.1.toList

/-! ## Calls -/

/-- All that a host can do with a session. -/
inductive Call where
  | choose (c : Choice)
  | grow
  | ask (q : Question)

namespace Call

/-- A growth is done before the tree is assigned and the meshes are dropped. -/
def program (meshes : InPlace (Option (Mesh × Mesh))) : Call → InPlace Answer
  | .choose c => do
    c.program read
    return .done
  | .grow => do
    let s ← get
    let tree ← s.recipe.grow
    modify fun s => { s with tree := some tree }
    modify fun s => { s with meshes := none }
    return .done
  | .ask q => q.program meshes

/-- The operation of a call. -/
def operation : Call → Operation
  | .choose c => c.operation
  | .grow => .grow
  | .ask q => q.operation

/-- What a call on a session answers, unless it fails. -/
def answer (s : Session) : Call → Answer
  | .ask q => q.answer s
  | _ => .done

end Call

lemma Choice.on_program (c : Choice) (s : Session) :
    (c.program read).on s =
      ((s.perform read c.operation).map fun _ => ⟨⟩, s.next read c.operation) := by
  cases c with
  | preset key =>
    cases h : Catalog.shipped.find key <;>
      simp [program, operation, next, perform, applyPreset, h] <;> rfl
  | document text =>
    cases h : read text <;> simp [program, operation, next, perform, configure, h] <;> rfl
  | iterations n =>
    by_cases h : n < 0 <;> simp [program, operation, next, perform, setIterations, h] <;> rfl
  | _ => rfl

lemma on_keptMeshes (s : Session) : keptMeshes.on s = (.ok s.withMeshes.1, s.withMeshes.2) := by
  obtain ⟨recipe, tree, meshes⟩ := s
  cases meshes with
  | some m => simp [keptMeshes, withMeshes]
  | none => cases tree <;> simp [keptMeshes, withMeshes, Except.map]

lemma on_buffer {α : Type} (part : Mesh × Mesh → Array α) (answer : List α → Answer)
    (s : Session) : (buffer keptMeshes part answer).on s =
      (.ok (answer (s.withMeshes.1.elim #[] part).toList), s.withMeshes.2) := by
  simp [buffer, on_keptMeshes, Except.map]

lemma Question.on_program (q : Question) (s : Session) : (q.program keptMeshes).on s =
    ((s.perform read q.operation).map fun _ => q.answer s, s.next read q.operation) := by
  cases q with
  | branchVertices | branchIndices | leafVertices | leafIndices => exact on_buffer _ _ s
  | _ => rfl

/-- **Programs in place do what the operations do.**  A program answers if the operation succeeds,
and it leaves the next session. -/
lemma Call.on_program (c : Call) (s : Session) : (c.program read keptMeshes).on s =
    ((s.perform read c.operation).map fun _ => c.answer s, s.next read c.operation) := by
  cases c with
  | choose c =>
    rw [program, on_bind, c.on_program, operation]
    cases s.perform read c.operation <;> rfl
  | grow =>
    cases h : s.recipe.grow <;> simp [program, operation, next, perform, Session.grow, h] <;> rfl
  | ask q => exact q.on_program read s

/-! ## Sequences of calls -/

variable (meshes : InPlace (Option (Mesh × Mesh)))

/-- The session that a host holds after some calls. -/
def held (calls : List Call) : Session :=
  calls.foldl (fun s c => ((c.program read meshes).on s).2) start

@[simp] lemma held_nil : held read meshes [] = start := rfl

@[simp] lemma held_concat (calls : List Call) (c : Call) : held read meshes (calls ++ [c]) =
    ((c.program read meshes).on (held read meshes calls)).2 := by
  simp [held]

/-- A host holds what a run of the operations leads to. -/
lemma held_eq_run (calls : List Call) :
    held read keptMeshes calls = run read (calls.map Call.operation) := by
  induction calls using List.reverseRecOn with
  | nil => rfl
  | append_singleton calls c ih => simp [Call.on_program, ih]

/-- The call at a place is a growth, and it succeeds. -/
def GrownAt (calls : List Call) (k : ℕ) : Prop :=
  calls[k]? = some .grow ∧
    ∃ a, ((Call.grow.program read keptMeshes).on (held read keptMeshes (calls.take k))).1 = .ok a

variable {read}

/-- A growth succeeds if the recipe grows. -/
lemma on_grow_eq_ok_iff (s : Session) :
    (∃ a, ((Call.grow.program read keptMeshes).on s).1 = .ok a) ↔ ∃ t, s.recipe.grow = .ok t := by
  rw [Call.on_program]
  cases h : s.recipe.grow <;> simp [Call.operation, perform, Session.grow, h, Except.map]

lemma GrownAt.lt_length {calls : List Call} {k : ℕ} (h : GrownAt read calls k) :
    k < calls.length := (List.getElem?_eq_some_iff.mp h.1).1

lemma grownAt_append_of_lt {calls : List Call} {k : ℕ} (hk : k < calls.length)
    (more : List Call) : GrownAt read (calls ++ more) k ↔ GrownAt read calls k := by
  rw [GrownAt, GrownAt, List.getElem?_append_left hk, List.take_append_of_le_length hk.le]

lemma grownAt_concat_length (calls : List Call) (c : Call) :
    GrownAt read (calls ++ [c]) calls.length ↔
      c = .grow ∧ ∃ t, (held read keptMeshes calls).recipe.grow = .ok t := by
  simp [GrownAt, on_grow_eq_ok_iff]

/-- A call that is no growth, or one that fails, keeps the tree. -/
lemma tree_held_concat {calls : List Call} {c : Call}
    (h : ¬ GrownAt read (calls ++ [c]) calls.length) :
    (held read keptMeshes (calls ++ [c])).tree = (held read keptMeshes calls).tree := by
  rw [grownAt_concat_length] at h
  rw [held_concat, Call.on_program]
  refine (observe_of_forall_ne read _ none fun hop s' hs' => h ⟨?_, ?_⟩).2
  · cases c with
    | grow => rfl
    | choose c => cases c <;> cases hop
    | ask q => cases q <;> cases hop
  · obtain ⟨t, ht, -⟩ := grow_eq_ok_iff.mp hs'
    exact ⟨t, ht⟩

/-- A growth that succeeds puts its tree in place of the one before. -/
lemma tree_held_concat_grow {calls : List Call} {t : Tree}
    (h : (held read keptMeshes calls).recipe.grow = .ok t) :
    (held read keptMeshes (calls ++ [.grow])).tree = some t := by
  have hgrow : (held read keptMeshes calls).grow =
      .ok { held read keptMeshes calls with tree := some t, meshes := none } :=
    grow_eq_ok_iff.mpr ⟨t, h, rfl⟩
  rw [held_concat, Call.on_program]
  simp [Call.operation, next, perform, hgrow]

lemma tree_held_eq_none_iff (calls : List Call) :
    (held read keptMeshes calls).tree = none ↔ ∀ k, ¬ GrownAt read calls k := by
  induction calls using List.reverseRecOn with
  | nil => simp [GrownAt, start]
  | append_singleton calls c ih =>
    by_cases hlast : GrownAt read (calls ++ [c]) calls.length
    · obtain ⟨rfl, t, ht⟩ := (grownAt_concat_length calls c).mp hlast
      rw [tree_held_concat_grow ht]
      exact ⟨fun h => (Option.some_ne_none t h).elim, fun h => (h _ hlast).elim⟩
    · rw [tree_held_concat hlast, ih]
      constructor
      · intro h k hk
        rcases Nat.lt_or_eq_of_le (Nat.le_of_lt_succ (by simpa using hk.lt_length)) with hlt | rfl
        · exact h k ((grownAt_append_of_lt hlt [c]).mp hk)
        · exact hlast hk
      · intro h k hk
        exact h k ((grownAt_append_of_lt hk.lt_length [c]).mpr hk)

/-- The tree is that of the last growth that succeeded. -/
lemma tree_held_of_last {calls : List Call} {k : ℕ} (hk : GrownAt read calls k)
    (hlast : ∀ j, k < j → ¬ GrownAt read calls j) :
    ∃ t, (held read keptMeshes (calls.take k)).recipe.grow = .ok t ∧
      (held read keptMeshes calls).tree = some t := by
  induction calls using List.reverseRecOn with
  | nil => simp [GrownAt] at hk
  | append_singleton calls c ih =>
    rcases Nat.lt_or_eq_of_le (Nat.le_of_lt_succ (by simpa using hk.lt_length)) with hlt | rfl
    · -- The call at the end is no successful growth, as the last one comes before it.
      rw [tree_held_concat (hlast calls.length hlt), List.take_append_of_le_length hlt.le]
      refine ih ((grownAt_append_of_lt hlt [c]).mp hk) fun j hj hgrown => hlast j hj ?_
      exact (grownAt_append_of_lt hgrown.lt_length [c]).mpr hgrown
    · obtain ⟨rfl, t, ht⟩ := (grownAt_concat_length calls c).mp hk
      rw [List.take_left]
      exact ⟨t, ht, tree_held_concat_grow ht⟩

/-! ## What calls change -/

/-- A failure comes before the first assignment. -/
lemma Call.on_program_error {c : Call} {s s' : Session} {e : Failure}
    (h : (c.program read keptMeshes).on s = (.error e, s')) : s' = s := by
  rw [Call.on_program] at h
  unfold next at h
  cases hs : s.perform read c.operation with
  | error e =>
    rw [hs] at h
    exact (Prod.mk.inj h).2.symm
  | ok s'' =>
    rw [hs] at h
    cases h

/-- A choice makes a recipe of the one that is there, or fails; it reads and assigns nothing
else. -/
lemma Choice.exists_on_program (read : String → Except Failure Recipe) (c : Choice) :
    ∃ f : Recipe → Except Failure Recipe, ∀ s : Session,
      (c.program read).on s = match f s.recipe with
      | .ok r => (.ok ⟨⟩, { s with recipe := r })
      | .error e => (.error e, s) := by
  cases c with
  | preset key =>
    refine ⟨fun r => (Catalog.shipped.find key).map r.apply, fun s => ?_⟩
    cases h : Catalog.shipped.find key <;> simp [program, h, Except.map]
  | document text =>
    refine ⟨fun _ => read text, fun s => ?_⟩
    cases h : read text <;> simp [program, h]
  | iterations n =>
    refine ⟨fun r => if n < 0 then .error (.invalidField .iterations (.negativeCount n))
      else .ok { r with iterations := n.toNat }, fun s => ?_⟩
    by_cases h : n < 0 <;> simp [program, h]
  | axiomText text => exact ⟨fun r => .ok { r with axiomText := text }, fun _ => rfl⟩
  | rulesText text => exact ⟨fun r => .ok { r with rulesText := text }, fun _ => rfl⟩
  | angle degrees => exact ⟨fun r => .ok { r with angle := degrees }, fun _ => rfl⟩
  | seed n => exact ⟨fun r => .ok { r with seed := n.toUInt64 }, fun _ => rfl⟩
  | addLeaves add => exact ⟨fun r => .ok { r with addLeaves := add }, fun _ => rfl⟩

lemma Call.on_choose_ok {c : Choice} {s s' : Session} {a : Answer}
    (h : ((Call.choose c).program read keptMeshes).on s = (.ok a, s')) :
    s'.tree = s.tree ∧ s'.meshes = s.meshes := by
  obtain ⟨f, hf⟩ := c.exists_on_program read
  rw [program, on_bind, hf] at h
  cases hr : f s.recipe with
  | error e =>
    rw [hr] at h
    cases h
  | ok r =>
    rw [hr] at h
    cases h
    exact ⟨rfl, rfl⟩

lemma withMeshes_recipe (s : Session) : s.withMeshes.2.recipe = s.recipe := by
  unfold withMeshes
  cases s.meshes with
  | some m => rfl
  | none => cases h : s.tree <;> simp

/-- A question is always answered, and only the meshes may be kept for it. -/
lemma Call.exists_on_ask (q : Question) (s : Session) :
    ∃ s', ((Call.ask q).program read keptMeshes).on s = (.ok (q.answer s), s') ∧
      s'.recipe = s.recipe ∧ s'.tree = s.tree := by
  refine ⟨s.next read q.operation, ?_, ?_⟩
  · rw [Call.on_program]
    cases q <;> rfl
  · cases q with
    | branchVertices | branchIndices | leafVertices | leafIndices =>
      exact ⟨withMeshes_recipe s, withMeshes_tree s⟩
    | _ => exact ⟨rfl, rfl⟩

variable (read)

/-- **Calls on a session in place.**  Whatever the reader of documents is, a program in place
answers if the operation of the session succeeds, and leaves the next session.  A call that fails
leaves the whole session as it was; a choice that succeeds changes the recipe alone; a question is
always answered, and changes neither the recipe nor the tree.  After any calls there is no tree if
no growth has succeeded, and else it is the tree that the recipe grew at the last one that did. -/
theorem held_of_calls :
    (∀ (c : Call) (s : Session), (c.program read keptMeshes).on s =
      ((s.perform read c.operation).map fun _ => c.answer s, s.next read c.operation)) ∧
    (∀ (c : Call) (s : Session) (e : Failure) (s' : Session),
      (c.program read keptMeshes).on s = (.error e, s') → s' = s) ∧
    (∀ (c : Choice) (s : Session) (a : Answer) (s' : Session),
      ((Call.choose c).program read keptMeshes).on s = (.ok a, s') →
        s'.tree = s.tree ∧ s'.meshes = s.meshes) ∧
    (∀ (q : Question) (s : Session), ∃ s',
      ((Call.ask q).program read keptMeshes).on s = (.ok (q.answer s), s') ∧
        s'.recipe = s.recipe ∧ s'.tree = s.tree) ∧
    ∀ calls : List Call,
      ((held read keptMeshes calls).tree = none ↔ ∀ k, ¬ GrownAt read calls k) ∧
      ∀ k, GrownAt read calls k → (∀ j, k < j → ¬ GrownAt read calls j) →
        ∃ t, (held read keptMeshes (calls.take k)).recipe.grow = .ok t ∧
          (held read keptMeshes calls).tree = some t :=
  ⟨fun c s => c.on_program read s, fun _ _ _ _ h => Call.on_program_error h,
    fun _ _ _ _ h => Call.on_choose_ok h, fun q s => Call.exists_on_ask q s,
    fun calls => ⟨tree_held_eq_none_iff calls, fun _ hk hlast => tree_held_of_last hk hlast⟩⟩

end Arbor.Session
