import Arbor.Proofs.Number.Signless
import Mathlib.Data.EReal.Basic

/-!
# The order of all numbers but NaNs

With its two infinities the format is ordered like the extended reals (`lt_iff_extended_lt`); only
NaNs are left out, and two zeros are equal whatever their signs.  Of two numbers `least` takes one
that the order puts first, and `greatest` one that it puts last.  What a fold with such an operation
ends with is one of the numbers it went over, and no other one comes before it (`Picks.foldl_mem`,
`Picks.foldl_le`).
-/

namespace Arbor.Number

open Float.Model (UnpackedFloat)
open Float.Model.UnpackedFloat

/-! ## Extended reals -/

/-- The extended real that an unpacked number stands for; a NaN stands for zero. -/
noncomputable def extendedValue : UnpackedFloat → EReal
  | .infinity .positive => ⊤
  | .infinity .negative => ⊥
  | u => (value u : ℝ)

lemma extendedValue_of_isFinite {u : UnpackedFloat} (hu : u.isFinite = true) :
    extendedValue u = (value u : ℝ) := by
  cases u with
  | infinity s => cases hu
  | _ => rfl

/-- An infinite number against a finite one. -/
lemma compare_infinity {u : UnpackedFloat} (hu : u.isFinite = true) (s : Sign) :
    (UnpackedFloat.infinity s).compare u = some (cmp (extendedValue (.infinity s))
      (extendedValue u)) ∧
    u.compare (.infinity s) = some (cmp (extendedValue u) (extendedValue (.infinity s))) := by
  rw [extendedValue_of_isFinite hu]
  cases s with
  | positive =>
    have hlt : ((value u : ℝ) : EReal) < extendedValue (.infinity .positive) := EReal.coe_lt_top _
    rw [(cmp_eq_gt_iff _ _).mpr hlt, (cmp_eq_lt_iff _ _).mpr hlt]
    cases u with
    | infinity | notANumber => cases hu
    | zero | finite => exact ⟨rfl, rfl⟩
  | negative =>
    have hlt : extendedValue (.infinity .negative) < ((value u : ℝ) : EReal) := EReal.bot_lt_coe _
    rw [(cmp_eq_gt_iff _ _).mpr hlt, (cmp_eq_lt_iff _ _).mpr hlt]
    cases u with
    | infinity | notANumber => cases hu
    | zero | finite => exact ⟨rfl, rfl⟩

lemma compare_infinities (s t : Sign) : (UnpackedFloat.infinity s).compare (.infinity t) =
    some (cmp (extendedValue (.infinity s)) (extendedValue (.infinity t))) := by
  match s, t with
  | .positive, .positive | .negative, .negative =>
    rw [cmp_self_eq_eq]
    rfl
  | .positive, .negative =>
    have hlt : (⊥ : EReal) < ⊤ := bot_lt_top
    exact congrArg some ((cmp_eq_gt_iff _ _).mpr hlt).symm
  | .negative, .positive =>
    have hlt : (⊥ : EReal) < ⊤ := bot_lt_top
    exact congrArg some ((cmp_eq_lt_iff _ _).mpr hlt).symm

/-- All numbers but NaNs compare like the extended reals they stand for. -/
lemma compare_eq_cmp_extended {f : Float.Model.Format} {u v : UnpackedFloat} (hu : Canonical f u)
    (hv : Canonical f v) (hu' : u ≠ .notANumber) (hv' : v ≠ .notANumber) :
    u.compare v = some (cmp (extendedValue u) (extendedValue v)) := by
  match u, v with
  | .infinity s, .infinity t => exact compare_infinities s t
  | .infinity s, .zero _ | .infinity s, .finite .. => exact (compare_infinity rfl s).1
  | .zero _, .infinity t | .finite .., .infinity t => exact (compare_infinity rfl t).2
  | .zero _, .zero _ | .zero _, .finite .. | .finite .., .zero _ | .finite .., .finite .. =>
    rw [compare_eq_cmp hu hv rfl rfl, extendedValue_of_isFinite rfl, extendedValue_of_isFinite rfl,
      EReal.coe_strictMono.cmp_map_eq]

variable {x y : Float32}

/-- The extended real that a number stands for; a NaN stands for zero. -/
noncomputable def extended (x : Float32) : EReal := extendedValue (unpacked x)

lemma compare_unpacked (hx : x.isNaN = false) (hy : y.isNaN = false) :
    (unpacked x).compare (unpacked y) = some (cmp (extended x) (extended y)) := by
  have hproper : ∀ {z : Float32}, z.isNaN = false → unpacked z ≠ .notANumber := fun hz h => by
    rw [isNaN_iff.mpr h] at hz
    cases hz
  exact compare_eq_cmp_extended (canonical_unpacked x) (canonical_unpacked y) (hproper hx)
    (hproper hy)

lemma lt_iff_extended_lt (hx : x.isNaN = false) (hy : y.isNaN = false) :
    x < y ↔ extended x < extended y := by
  rw [Packed.lt_iff]
  show ((unpacked x).compare (unpacked y) == some .lt) = true ↔ _
  rw [compare_unpacked hx hy, beq_iff_eq, Option.some_inj, cmp_eq_lt_iff]

lemma le_iff_extended_le (hx : x.isNaN = false) (hy : y.isNaN = false) :
    x ≤ y ↔ extended x ≤ extended y := by
  rw [Packed.le_iff]
  show (((unpacked x).compare (unpacked y)).any (·.isLE)) = true ↔ _
  rw [compare_unpacked hx hy, Option.any_some, ← not_lt, ← cmp_eq_gt_iff]
  cases cmp (extended x) (extended y) <;> decide

/-- Numbers that are on both sides of each other are the same but for the sign of a zero. -/
lemma matches_of_le_of_le (hx : x.isNaN = false) (hy : y.isNaN = false) (h : x ≤ y) (h' : y ≤ x) :
    Matches x y := by
  have heq : extended x = extended y :=
    le_antisymm ((le_iff_extended_le hx hy).mp h) ((le_iff_extended_le hy hx).mp h')
  have hcompare := compare_unpacked hx hy
  rw [heq, cmp_self_eq_eq, compare_eq_some_eq_iff] at hcompare
  exact matches_iff.mpr hcompare.1

/-! ## The first one of many -/

/-- An operation that picks one of two numbers, and of two that are no NaNs one of the lower
rank. -/
structure Picks {α : Type} [Preorder α] (rank : Float32 → α)
    (pick : Float32 → Float32 → Float32) : Prop where
  eq_or : ∀ x y, pick x y = x ∨ pick x y = y
  le_left : ∀ {x y}, x.isNaN = false → y.isNaN = false → rank (pick x y) ≤ rank x
  le_right : ∀ {x y}, x.isNaN = false → y.isNaN = false → rank (pick x y) ≤ rank y

lemma picks_least : Picks extended least where
  eq_or x y := by
    unfold least
    split_ifs <;> simp
  le_left {x y} hx hy := by
    unfold least
    rw [hx, if_neg Bool.false_ne_true]
    split_ifs with h
    · exact ((lt_iff_extended_lt hy hx).mp h).le
    · exact le_rfl
  le_right {x y} hx hy := by
    unfold least
    rw [hx, if_neg Bool.false_ne_true]
    split_ifs with h
    · exact le_rfl
    · exact not_lt.mp (mt (lt_iff_extended_lt hy hx).mpr h)

lemma picks_greatest : Picks (fun x => OrderDual.toDual (extended x)) greatest where
  eq_or x y := by
    unfold greatest
    split_ifs <;> simp
  le_left {x y} hx hy := by
    unfold greatest
    rw [hx, if_neg Bool.false_ne_true, OrderDual.toDual_le_toDual]
    split_ifs with h
    · exact ((lt_iff_extended_lt hx hy).mp h).le
    · exact le_rfl
  le_right {x y} hx hy := by
    unfold greatest
    rw [hx, if_neg Bool.false_ne_true, OrderDual.toDual_le_toDual]
    split_ifs with h
    · exact le_rfl
    · exact not_lt.mp (mt (lt_iff_extended_lt hx hy).mpr h)

namespace Picks

variable {α : Type} [Preorder α] {rank : Float32 → α} {pick : Float32 → Float32 → Float32}

/-- What is left in the end is one of the numbers. -/
lemma foldl_mem (h : Picks rank pick) (xs : List Float32) (x : Float32) :
    xs.foldl pick x ∈ x :: xs := by
  induction xs generalizing x with
  | nil => exact List.mem_singleton_self x
  | cons y xs ih =>
    rw [List.foldl_cons]
    rcases List.mem_cons.mp (ih (pick x y)) with hfirst | hrest
    · rw [hfirst]
      rcases h.eq_or x y with hx | hy
      · simp [hx]
      · simp [hy]
    · exact List.mem_cons_of_mem x (List.mem_cons_of_mem y hrest)

/-- No other one comes before it. -/
lemma foldl_le (h : Picks rank pick) (xs : List Float32) {x : Float32}
    (hproper : ∀ z ∈ x :: xs, z.isNaN = false) :
    ∀ z ∈ x :: xs, rank (xs.foldl pick x) ≤ rank z := by
  induction xs generalizing x with
  | nil =>
    intro z hz
    rw [List.mem_singleton.mp hz]
    exact le_rfl
  | cons y xs ih =>
    have hx : x.isNaN = false := hproper x (by simp)
    have hy : y.isNaN = false := hproper y (by simp)
    have hpick : (pick x y).isNaN = false := by
      rcases h.eq_or x y with heq | heq <;> rw [heq] <;> assumption
    have hrest := ih (x := pick x y) fun z hz => by
      rcases List.mem_cons.mp hz with rfl | hz
      · exact hpick
      · exact hproper z (by simp [hz])
    have hfirst := hrest (pick x y) List.mem_cons_self
    intro z hz
    rw [List.foldl_cons]
    rcases List.mem_cons.mp hz with rfl | hz
    · exact hfirst.trans (h.le_left hx hy)
    · rcases List.mem_cons.mp hz with rfl | hz
      · exact hfirst.trans (h.le_right hx hy)
      · exact hrest z (List.mem_cons_of_mem _ hz)

end Picks

end Arbor.Number
