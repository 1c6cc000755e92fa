import Arbor.Proofs.Number.Range
import Arbor.Turtle.Settings

/-!
# Admissible settings

What a check of settings promises, in reals: each length, factor and bound of a variation lies in a
range (`Settings.Admissible`).  Later arguments use the ranges and not the checks.
-/

namespace Arbor

open Number

lemma ok_bind {ε α β : Type} (a : α) (f : α → Except ε β) : (Except.ok a >>= f) = f a := rfl

/-- What a computation of two steps has done if it succeeds. -/
lemma bind_eq_ok_iff {ε α β : Type} {x : Except ε α} {f : α → Except ε β} {b : β} :
    x >>= f = .ok b ↔ ∃ a, x = .ok a ∧ f a = .ok b := by
  cases x with
  | error e => simp [bind, Except.bind]
  | ok a => simp [bind, Except.bind]

/-- The same where the first step only checks. -/
lemma check_bind_eq_ok_iff {ε β : Type} {x : Except ε Unit} {f : Unit → Except ε β} {b : β} :
    x >>= f = .ok b ↔ x = .ok () ∧ f () = .ok b := by
  rw [bind_eq_ok_iff]
  constructor
  · rintro ⟨⟨⟩, hx, hf⟩
    exact ⟨hx, hf⟩
  · rintro ⟨hx, hf⟩
    exact ⟨(), hx, hf⟩

/-- The same where the first step is a condition that is not to hold. -/
lemma throw_ite_eq_ok_iff {ε β γ : Type} {P : Prop} [Decidable P] {e : ε} {f : γ → Except ε β}
    {x : Except ε β} {b : β} :
    (if P then throw e >>= f else x) = .ok b ↔ ¬ P ∧ x = .ok b := by
  by_cases h : P
  · rw [if_pos h]
    constructor
    · intro hthrow
      cases hthrow
    · exact fun hnot => absurd h hnot.1
  · rw [if_neg h]
    exact ⟨fun hx => ⟨h, hx⟩, fun hx => hx.2⟩

/-- A step that cannot fail keeps the failures. -/
lemma map_eq_error_iff {ε α β : Type} {x : Except ε α} {f : α → β} {e : ε} :
    x.map f = .error e ↔ x = .error e := by
  cases x with
  | error e => simp [Except.map]
  | ok a => simp [Except.map]

lemma map_eq_ok_iff {ε α β : Type} {x : Except ε α} {f : α → β} {b : β} :
    x.map f = .ok b ↔ ∃ a, x = .ok a ∧ f a = b := by
  cases x with
  | error e => simp [Except.map]
  | ok a => simp [Except.map]

/-! ## Checks of one number -/

namespace Check

variable {field : Field} {v bound : Float32} {k : ℕ}

lemma finite_eq_ok_iff : finite field v = .ok () ↔ IsFinite v := by
  rw [← isFinite_iff, finite]
  split_ifs with h <;> simp [h]

lemma positive_eq_ok_iff : positive field v = .ok () ↔ IsFinite v ∧ 0 < val v := by
  rw [positive, check_bind_eq_ok_iff, finite_eq_ok_iff]
  refine and_congr_right fun hv => ?_
  rw [← val_zero, ← lt_iff_val_lt below_zero.1 hv]
  split_ifs with h <;> simp [h]

lemma nonNegative_eq_ok_iff : nonNegative field v = .ok () ↔ IsFinite v ∧ 0 ≤ val v := by
  rw [nonNegative, check_bind_eq_ok_iff, finite_eq_ok_iff]
  refine and_congr_right fun hv => ?_
  rw [← val_zero, ← le_iff_val_le below_zero.1 hv]
  split_ifs with h <;> simp [h]

/-- A bounded number stays below a power of two that the bound with its slack does not pass. -/
lemma within_of_bounded (h : bounded field v bound = .ok ()) (hbound : Below k (bound + slack)) :
    Within 0 (2 ^ k) v := by
  rw [bounded, check_bind_eq_ok_iff, nonNegative_eq_ok_iff] at h
  obtain ⟨⟨hv, hv0⟩, hle⟩ := h
  refine ⟨hv, hv0, ?_⟩
  have hle' : v ≤ bound + slack := by
    by_contra hnot
    simp [hnot] at hle
  rw [le_iff_val_le hv hbound.1] at hle'
  exact hle'.trans (abs_le.mp hbound.2).2

lemma within_of_decay (h : decay field v = .ok ()) : Within 0 1 v := by
  rw [decay, check_bind_eq_ok_iff, finite_eq_ok_iff] at h
  obtain ⟨hv, hrange⟩ := h
  have hrange' : 0 < v ∧ v ≤ 1 := by
    by_contra hnot
    rw [if_neg hnot] at hrange
    cases hrange
  rw [lt_iff_val_lt below_zero.1 hv, le_iff_val_le hv below_one.1, val_zero, val_one] at hrange'
  exact ⟨hv, hrange'.1.le, hrange'.2⟩

end Check

namespace Turtle.Settings

/-- Settings whose numbers are in range: positive lengths, factors that do not enlarge, and
variations whose bounds are moderate. -/
structure Admissible (s : Settings) : Prop where
  angle : IsFinite s.angle
  initialLength : IsFinite s.initialLength ∧ 0 < val s.initialLength
  initialRadius : IsFinite s.initialRadius ∧ 0 < val s.initialRadius
  lengthDecay : Within 0 1 s.lengthDecay
  radiusDecay : Within 0 1 s.radiusDecay
  rotationJitter : Within 0 (2 ^ 0) s.rotationJitter
  lengthJitter : Within 0 (2 ^ 0) s.lengthJitter
  branchSpread : Within 0 (2 ^ 2) s.branchSpread
  tropismStrength : Within 0 (2 ^ 1) s.tropismStrength
  tropismDirection : s.tropismDirection.isFinite = true
  leafJitter : Within 0 (2 ^ 2) s.leafJitter

theorem admissible_of_check {s : Settings} (h : s.check = .ok ()) : s.Admissible := by
  simp only [check, check_bind_eq_ok_iff, throw_ite_eq_ok_iff] at h
  obtain ⟨hangle, hlength, hradius, hlengthDecay, hradiusDecay, hrotation, hjitter, hless,
    hspread, hstrength, hdirection, hleaf⟩ := h
  have hone : Within 0 (2 ^ 0) s.lengthJitter := by
    obtain ⟨hfinite, hpos⟩ := Check.nonNegative_eq_ok_iff.mp hjitter
    rw [le_iff_val_le below_one.1 hfinite, val_one, not_le] at hless
    exact ⟨hfinite, hpos, by simpa using hless.le⟩
  exact
    { angle := Check.finite_eq_ok_iff.mp hangle
      initialLength := Check.positive_eq_ok_iff.mp hlength
      initialRadius := Check.positive_eq_ok_iff.mp hradius
      lengthDecay := Check.within_of_decay hlengthDecay
      radiusDecay := Check.within_of_decay hradiusDecay
      rotationJitter := Check.within_of_bounded hrotation
        ((below_iff_toNat_le (by norm_num)).mpr (by decide))
      lengthJitter := hone
      branchSpread := Check.within_of_bounded hspread
        ((below_iff_toNat_le (by norm_num)).mpr (by decide))
      tropismStrength := Check.within_of_bounded hstrength
        ((below_iff_toNat_le (by norm_num)).mpr (by decide))
      tropismDirection := by
        by_contra hnot
        exact hdirection (.inl hnot)
      leafJitter := Check.within_of_bounded hleaf
        ((below_iff_toNat_le (by norm_num)).mpr (by decide)) }

end Turtle.Settings

end Arbor
