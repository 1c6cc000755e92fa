import Arbor.Proofs.Space.Signless
import Arbor.Space.Bezier
import Mathlib.Data.List.Forall2

/-!
# Handles do not depend on the direction of travel

A run of knots can be followed from either end.  The way from a knot to its neighbour turns round
then, and with it the tangent (`Handles.opposed_tangent`), and the two handles of a knot change
places (`Handles.matches_atKnot`).

The handles of a run are computed between two neighbours that the run may have outside
(`Handles.between`); a run with open ends is a case of it (`Handles.auto_eq_between`), and the
reversal is by induction on the run, with these neighbours exchanged (`Handles.matches_between`).
-/

namespace Arbor

open Number

namespace Handles

variable {before after : Option Vec3}

/-- Handles that are the same points. -/
structure Matches (h k : Handles) : Prop where
  left : h.left.Matches k.left
  right : h.right.Matches k.right

/-- The handles of a knot for the other direction of travel. -/
def swap (h : Handles) : Handles := ⟨h.right, h.left⟩

/-! ## One knot -/

/-- With the neighbours exchanged a tangent turns round. -/
lemma opposed_tangent (before : Option Vec3) (p : Vec3) (after : Option Vec3) :
    (tangent before p after).Opposed (tangent after p before) :=
  match before, after with
  | some a, some b => (Vec3.opposed_sub b a).normalize
  | none, some b => (Vec3.opposed_sub b p).normalize
  | some a, none => (Vec3.opposed_sub p a).normalize
  | none, none => Vec3.opposed_zero

/-- With the neighbours exchanged the handles of a knot change places. -/
lemma matches_atKnot (before : Option Vec3) (p : Vec3) (after : Option Vec3) :
    (atKnot before p after).Matches (atKnot after p before).swap where
  left := ((opposed_tangent before p after).scale (.refl _)).sub_matches_add p
  right := (((opposed_tangent after p before).scale (.refl _)).sub_matches_add p).symm

/-! ## Runs of knots -/

/-- The handles of a run of knots between two neighbours outside of it, which it may not have. -/
def between (before : Option Vec3) : List Vec3 → Option Vec3 → List Handles
  | [], _ => []
  | p :: ps, after => atKnot before p (ps.head?.or after) :: between (some p) ps after

/-- A run with open ends. -/
lemma auto_eq_between (knots : List Vec3) : auto knots = between none knots none := by
  have hrun : ∀ before after : Option Vec3,
      (knots.zip ((before :: knots.map some).zip (knots.tail.map some ++ [after]))).map
        (fun k => atKnot k.2.1 k.1 k.2.2) = between before knots after := by
    induction knots with
    | nil => exact fun _ _ => rfl
    | cons p ps ih =>
      intro before after
      cases ps with
      | nil => rfl
      | cons q qs => exact congrArg (atKnot before p (some q) :: ·) (ih (some p) after)
  exact hrun none none

/-- One more knot at the end. -/
lemma between_concat (before : Option Vec3) (knots : List Vec3) (p : Vec3) (after : Option Vec3) :
    between before (knots ++ [p]) after =
      between before knots (some p) ++ [atKnot (knots.getLast?.or before) p after] := by
  induction knots generalizing before with
  | nil => simp [between]
  | cons q qs ih =>
    have hhead : (qs ++ [p]).head?.or after = qs.head?.or (some p) := by
      cases qs <;> rfl
    have hlast : (q :: qs).getLast?.or before = qs.getLast?.or (some q) := by
      rw [List.getLast?_cons]
      cases qs.getLast? <;> rfl
    rw [List.cons_append, between, ih, hhead, hlast]
    rfl

/-- A run the other way round, between the same neighbours in exchanged roles. -/
lemma matches_between (before : Option Vec3) (knots : List Vec3) (after : Option Vec3) :
    List.Forall₂ Matches (between before knots.reverse after)
      ((between after knots before).map swap).reverse := by
  induction knots generalizing after with
  | nil => exact .nil
  | cons p ps ih =>
    rw [List.reverse_cons, between_concat, List.getLast?_reverse, between, List.map_cons,
      List.reverse_cons]
    exact List.rel_append (ih (some p)) (.cons (matches_atKnot _ p after) .nil)

/-- **Handles do not depend on the direction of travel.**  The handles of a run of knots in reverse
are those of the run in reverse order, with the two handles of each knot exchanged: the same numbers
in every coordinate, up to the sign of a zero, infinities and NaNs included. -/
theorem auto_reverse (knots : List Vec3) :
    List.Forall₂ Matches (auto knots.reverse) ((auto knots).map swap).reverse := by
  rw [auto_eq_between, auto_eq_between]
  exact matches_between none knots none

end Handles

end Arbor
