import Arbor.Proofs.Session.Operations
import Arbor.Recipe.Document

/-!
# Failures and their causes

A failure can tell what is wrong in any words (`FieldFault.stated`, `RuleFault.stated`), because
what reads a document is a parameter of a session and may find faults of its own.  The library does
not: whatever it checks, reads, derives or grows fails by one of the causes that it names.  So a
failure of a session is in words only if its reader has given them (`namesCause_of_perform`), and
with the reader of the library none is (`failsByCause_perform`).
-/

namespace Arbor

/-- The failure names its cause, and does not only put it into words. -/
def Failure.NamesCause : Failure → Prop
  | .invalidField _ (.stated _) | .invalidRule _ (.stated _) => False
  | _ => True

/-- If there is a failure, it names its cause. -/
def FailsByCause {α : Type} (x : Except Failure α) : Prop := ∀ e, x = .error e → e.NamesCause

section Sequences

variable {α β : Type} {x y : Except Failure α} {e : Failure}

lemma failsByCause_ok (a : α) : FailsByCause (.ok a : Except Failure α) := by
  rintro e ⟨⟩

lemma failsByCause_error (h : e.NamesCause) : FailsByCause (.error e : Except Failure α) := by
  rintro e ⟨⟩
  exact h

lemma FailsByCause.bind (hx : FailsByCause x) {f : α → Except Failure β}
    (hf : ∀ a, FailsByCause (f a)) : FailsByCause (x >>= f) := by
  intro e h
  cases x with
  | error e' =>
    cases h
    exact hx e rfl
  | ok a => exact hf a e h

lemma FailsByCause.ite {p : Prop} [Decidable p] (hx : FailsByCause x) (hy : FailsByCause y) :
    FailsByCause (if p then x else y) := by
  split_ifs <;> assumption

lemma FailsByCause.test {p : Prop} [Decidable p] (a : α) (h : e.NamesCause) :
    FailsByCause (if p then .ok a else .error e) := (failsByCause_ok a).ite (failsByCause_error h)

/-- A test that ends a sequence early, and what comes after it. -/
lemma FailsByCause.unless {p : Prop} [Decidable p] (he : e.NamesCause) {f : Unit → Except Failure α}
    (hf : ∀ u, FailsByCause (f u)) : FailsByCause (if p then throw e >>= f else f ()) :=
  ((failsByCause_error he).bind hf).ite (hf ())

end Sequences

/-! ## Checks -/

namespace Check

variable (field : Field) (v : Float32)

lemma failsByCause_finite : FailsByCause (finite field v) := .test () (by trivial)

lemma failsByCause_positive : FailsByCause (positive field v) :=
  (failsByCause_finite field v).bind fun _ => .test () (by trivial)

lemma failsByCause_nonNegative : FailsByCause (nonNegative field v) :=
  (failsByCause_finite field v).bind fun _ => .test () (by trivial)

lemma failsByCause_bounded (bound : Float32) : FailsByCause (bounded field v bound) :=
  (failsByCause_nonNegative field v).bind fun _ => .test () (by trivial)

lemma failsByCause_decay : FailsByCause (decay field v) :=
  (failsByCause_finite field v).bind fun _ => .test () (by trivial)

end Check

open Check

lemma Turtle.Settings.failsByCause_check (s : Turtle.Settings) : FailsByCause s.check :=
  (failsByCause_finite _ _).bind fun _ => (failsByCause_positive _ _).bind fun _ =>
    (failsByCause_positive _ _).bind fun _ => (failsByCause_decay _ _).bind fun _ =>
    (failsByCause_decay _ _).bind fun _ => (failsByCause_bounded _ _ _).bind fun _ =>
    (failsByCause_nonNegative _ _).bind fun _ => .unless (by trivial) fun _ =>
    (failsByCause_bounded _ _ _).bind fun _ => (failsByCause_bounded _ _ _).bind fun _ =>
    .unless (by trivial) fun _ => failsByCause_bounded _ _ _

lemma Assembly.Settings.failsByCause_check (s : Assembly.Settings) : FailsByCause s.check :=
  (failsByCause_positive _ _).bind fun _ =>
    (failsByCause_positive _ _).ite (failsByCause_nonNegative _ _)

lemma Recipe.failsByCause_check (r : Recipe) : FailsByCause r.check :=
  .unless (by trivial) fun _ => .unless (by trivial) fun _ => .unless (by trivial) fun _ =>
    r.turtle.failsByCause_check.bind fun _ => r.assembly.failsByCause_check

/-! ## Rules and words -/

namespace Productions

variable (p : Productions)

/-- What a line can be faulted for. -/
lemma addLine_cases {p : Productions} {line : List Char} {fault : RuleFault}
    (h : p.addLine line = .error fault) :
    (∃ text, fault = .noColon text) ∨ (∃ key, fault = .badKey key) ∨
      ∃ symbol, fault = .repeated symbol := by
  simp only [addLine] at h
  split_ifs at h
  split at h
  · cases h
    exact .inl ⟨_, rfl⟩
  · split at h
    · split_ifs at h
      cases h
      exact .inr (.inr ⟨_, rfl⟩)
    · cases h
      exact .inr (.inl ⟨_, rfl⟩)

lemma failsByCause_addLines (n : ℕ) (lines : List (List Char)) :
    FailsByCause (p.addLines n lines) := by
  induction lines generalizing p n with
  | nil => exact failsByCause_ok p
  | cons line rest ih =>
    rw [addLines]
    cases h : p.addLine line with
    | ok p => exact ih p (n + 1)
    | error fault =>
      refine failsByCause_error ?_
      obtain ⟨text, rfl⟩ | ⟨key, rfl⟩ | ⟨symbol, rfl⟩ := addLine_cases h <;> trivial

lemma failsByCause_ofText (text : String) : FailsByCause (ofText text) :=
  failsByCause_addLines _ 1 _

lemma failsByCause_deriveFrom (limit iteration passes : ℕ) (w : Word) :
    FailsByCause (p.deriveFrom limit iteration passes w) := by
  induction passes generalizing iteration w with
  | zero => exact failsByCause_ok w
  | succ passes ih =>
    rw [deriveFrom, pass]
    split_ifs
    · exact failsByCause_error (by trivial)
    · exact ih _ _

lemma failsByCause_derive (start : Word) (passes : ℕ) (limits : Limits) :
    FailsByCause (p.derive start passes limits) :=
  (failsByCause_error (by trivial)).ite
    ((failsByCause_error (by trivial)).ite (p.failsByCause_deriveFrom _ _ _ _))

end Productions

/-! ## Trees and catalogs -/

lemma Plan.failsByCause_grow (p : Plan) : FailsByCause p.grow :=
  (p.productions.failsByCause_derive _ _ _).bind fun _ =>
    (p.recipe.turtle.failsByCause_check.bind fun _ => failsByCause_ok _).bind fun _ =>
    ((Assembly.Settings.failsByCause_check _).bind fun _ => failsByCause_ok _).bind fun _ =>
    failsByCause_ok _

lemma Recipe.failsByCause_grow (r : Recipe) : FailsByCause r.grow :=
  (r.failsByCause_check.bind fun _ => (Productions.failsByCause_ofText _).bind fun _ =>
    failsByCause_ok _).bind Plan.failsByCause_grow

lemma Recipe.failsByCause_ofDocument (text : String) : FailsByCause (ofDocument text) := by
  unfold ofDocument
  split
  · exact failsByCause_error (by trivial)
  · exact (Recipe.failsByCause_check _).bind fun _ => failsByCause_ok _

lemma Catalog.failsByCause_find (c : Catalog) (key : String) : FailsByCause (c.find key) := by
  simp only [find]
  split
  · exact failsByCause_ok _
  · exact failsByCause_error (by trivial)

/-! ## Sessions -/

namespace Session

variable {read : String → Except Failure Recipe} {s : Session} {op : Operation} {e : Failure}

/-- **Failures name their causes.**  If an operation fails, the failure names its cause, or the
reader has given it for the document that the operation was to take over. -/
theorem namesCause_of_perform (h : s.perform read op = .error e) :
    e.NamesCause ∨ ∃ text, op = .configure text ∧ read text = .error e := by
  cases op with
  | applyPreset key =>
    exact .inl ((Catalog.failsByCause_find _ key).bind (fun _ => failsByCause_ok _) e h)
  | configure text =>
    refine .inr ⟨text, rfl, ?_⟩
    cases hread : read text with
    | error e' =>
      rw [perform, configure, hread] at h
      cases h
      rfl
    | ok r =>
      rw [perform, configure, hread] at h
      cases h
  | setIterations n =>
    exact .inl ((failsByCause_error (by trivial)).ite (failsByCause_ok _) e h)
  | grow => exact .inl (s.recipe.failsByCause_grow.bind (fun _ => failsByCause_ok _) e h)
  | _ => cases h

/-- With the reader of the library every failure names its cause. -/
theorem failsByCause_perform (s : Session) (op : Operation) :
    FailsByCause (s.perform Recipe.ofDocument op) := by
  intro e h
  obtain hcause | ⟨text, -, hread⟩ := namesCause_of_perform h
  · exact hcause
  · exact Recipe.failsByCause_ofDocument text e hread

end Session

end Arbor
