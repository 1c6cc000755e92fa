import Arbor.Turtle.Walk
import Mathlib.Tactic.Lemma
import Mathlib.Tactic.SplitIfs

/-!
# Walks with different sources

A map between two sources that keeps every answer that the settings ask for carries a walk with the
one into a walk with the other: the records are the same, and the sources at the ends correspond
(`walk_map`).  Each draw of a walk is one of five kinds, whose ranges the settings fix
(`Answers`).
-/

namespace Arbor.Turtle

variable {σ τ : Type} [Source σ] [Source τ] (s : Settings) (f : σ → τ)

/-- The map keeps every answer to the draws of a walk by the settings. -/
structure Answers : Prop where
  rotationJitter : ∀ x, Source.rotationJitter (f x) s.rotationJitter =
    Prod.map id f (Source.rotationJitter x s.rotationJitter)
  lengthFactor : ∀ x, Source.lengthFactor (f x) s.lengthJitter =
    Prod.map id f (Source.lengthFactor x s.lengthJitter)
  branchSpread : ∀ x, Source.branchSpread (f x) s.branchSpread =
    Prod.map id f (Source.branchSpread x s.branchSpread)
  branchRoll : ∀ x, Source.branchRoll (f x) = Prod.map id f (Source.branchRoll x)
  leafOffset : ∀ x, Source.leafOffset (f x) s.leafJitter =
    Prod.map id f (Source.leafOffset x s.leafJitter)

namespace Walker

/-- The same turtle with another source. -/
def mapSource (w : Walker σ) : Walker τ :=
  ⟨w.pose, w.stack, f w.source, w.index, w.segments, w.leaves, w.warnings⟩

variable {s f} (hf : Answers s f) (w : Walker σ)

include hf

lemma rotate_mapSource (angle : Float32) (axis : Vec3) :
    rotate s (w.mapSource f) angle axis = (rotate s w angle axis).mapSource f := by
  simp only [rotate, mapSource, hf.rotationJitter, Prod.map, id]

lemma spread_mapSource : spread s (w.mapSource f) = (spread s w).mapSource f := by
  rw [spread, spread, ← rotate_mapSource hf]
  simp only [mapSource, hf.branchSpread, Prod.map, id]

lemma move_mapSource (draw : Bool) : move s (w.mapSource f) draw = (move s w draw).mapSource f := by
  cases draw <;>
  · simp only [move, mapSource, hf.lengthFactor, Prod.map, id]
    rfl

lemma roll_mapSource : roll s (w.mapSource f) = (roll s w).mapSource f := by
  unfold roll
  split_ifs
  · rw [← rotate_mapSource hf]
    simp only [mapSource, hf.branchRoll, Prod.map, id]
  · rfl

lemma openBranch_mapSource : openBranch s (w.mapSource f) = (openBranch s w).mapSource f := by
  rw [openBranch, openBranch, ← roll_mapSource hf, ← spread_mapSource hf]
  rfl

lemma closeBranch_mapSource : closeBranch s (w.mapSource f) = (closeBranch s w).mapSource f := by
  have hstack : (w.mapSource f).stack = w.stack := rfl
  unfold closeBranch
  rw [hstack]
  cases w.stack.back? with
  | none => rfl
  | some pose => simp only [mapSource, hf.leafOffset, Prod.map, id]

lemma act_mapSource (x : Symbol) : act s (w.mapSource f) x = (act s w x).mapSource f := by
  cases x with
  | forward => exact move_mapSource hf w true
  | skip => exact move_mapSource hf w false
  | turnLeft | turnRight =>
    simp only [act, yaw]
    rw [spread_mapSource hf, rotate_mapSource hf]
  | push => exact openBranch_mapSource hf w
  | pop => exact closeBranch_mapSource hf w
  | letter c => rfl
  | _ => exact rotate_mapSource hf w _ _

lemma run_mapSource (word : Word) : run s (w.mapSource f) word = (run s w word).mapSource f := by
  induction word generalizing w with
  | nil => rfl
  | cons x word ih =>
    have hstep : step s (w.mapSource f) x = (step s w x).mapSource f := by
      rw [step, act_mapSource hf]
      rfl
    show run s (step s (w.mapSource f) x) word = (run s (step s w x) word).mapSource f
    rw [hstep, ih]

end Walker

variable {s f} in
/-- A walk with the image of a source leaves the same record and the image of the last source. -/
lemma walk_map (hf : Answers s f) (word : Word) (source : σ) :
    walk s word (f source) = (walk s word source).map (Prod.map id f) := by
  unfold walk
  cases s.check with
  | error e => rfl
  | ok _ =>
    have hrun := Walker.run_mapSource hf (Walker.start s source) word
    show Except.ok ((Walker.run s (Walker.start s (f source)) word).trace,
      (Walker.run s (Walker.start s (f source)) word).source) = _
    have hstart : Walker.start s (f source) = (Walker.start s source).mapSource f := rfl
    rw [hstart, hrun]
    rfl

end Arbor.Turtle
