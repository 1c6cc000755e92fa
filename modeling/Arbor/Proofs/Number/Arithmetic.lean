import Arbor.Proofs.Number.Packing

/-!
# Arithmetic with packed numbers

Single and double precision share their laws: the two types are instances of `Packed`, which says
that an operation packs what the model's operation makes of the unpacked arguments.  So an
operation on finite numbers rounds the exact result (`finite_add`, `finite_sub`, `finite_mul`,
`finite_div`), as long as this stays below the limit of the format, and finite numbers are ordered
as the reals that they stand for (`lt_iff_val_lt`, `le_iff_val_le`).
-/

namespace Arbor.Number

open Float.Model (UnpackedFloat)
open Float.Model.UnpackedFloat

/-! ## Order of unpacked numbers -/

section Compare

variable {f : Float.Model.Format} {u v : UnpackedFloat}

/-- A larger unit means a larger number, as the mantissa has all of its bits. -/
lemma value_lt_of_exponent_lt {m₁ m₂ : ℕ} {e₁ e₂ : ℤ} (h₁ : m₁ < 2 ^ f.mantissaBits)
    (hmin : f.minExponent ≤ e₁) (h₂ : 2 ^ (f.mantissaBits - 1) ≤ m₂ ∨ e₂ = f.minExponent)
    (he : e₁ < e₂) : (m₁ : ℝ) * 2 ^ e₁ < m₂ * 2 ^ e₂ := by
  have hfull : 2 ^ (f.mantissaBits - 1) ≤ m₂ := h₂.resolve_right (by omega)
  have hm₁ : (m₁ : ℝ) < 2 * 2 ^ (f.mantissaBits - 1) := by
    rw [two_pow_mantissaBits, ← mantissaBits_sub_one] at h₁
    exact_mod_cast h₁
  have hm₂ : (2 : ℝ) ^ (f.mantissaBits - 1) ≤ m₂ := by exact_mod_cast hfull
  have hpow : (2 : ℝ) ^ (e₁ + 1) ≤ 2 ^ e₂ := zpow_le_zpow_right₀ (by norm_num) he
  rw [zpow_add_one₀ (by norm_num)] at hpow
  have hpos : (0 : ℝ) < 2 ^ e₁ := by positivity
  calc (m₁ : ℝ) * 2 ^ e₁ < 2 * 2 ^ (f.mantissaBits - 1) * 2 ^ e₁ :=
        mul_lt_mul_of_pos_right hm₁ hpos
    _ = 2 ^ (f.mantissaBits - 1) * (2 ^ e₁ * 2) := by ring
    _ ≤ m₂ * 2 ^ e₂ := mul_le_mul hm₂ hpow (by positivity) (by positivity)

/-- Exponents first and then mantissas is the order of the values. -/
lemma compare_then_eq {m₁ m₂ : ℕ} {e₁ e₂ : ℤ} {hm₁ : 0 < m₁} {hm₂ : 0 < m₂} {s t : Sign}
    (h₁ : Canonical f (.finite s m₁ e₁ hm₁)) (h₂ : Canonical f (.finite t m₂ e₂ hm₂)) :
    (compare e₁ e₂).then (compare m₁ m₂) = cmp ((m₁ : ℝ) * 2 ^ e₁) (m₂ * 2 ^ e₂) := by
  obtain ⟨hlt₁, hmin₁, hfull₁⟩ := h₁
  obtain ⟨hlt₂, hmin₂, hfull₂⟩ := h₂
  rcases lt_trichotomy e₁ e₂ with he | rfl | he
  · have hvalue := value_lt_of_exponent_lt hlt₁ hmin₁ hfull₂ he
    rw [Int.compare_eq_lt.mpr he, (cmp_eq_lt_iff _ _).mpr hvalue]
    rfl
  · have hpos : (0 : ℝ) < 2 ^ e₁ := by positivity
    have hself : compare e₁ e₁ = .eq := Int.compare_eq_eq.mpr rfl
    rw [hself, Ordering.then, cmp_mul_pos_right hpos]
    rcases lt_trichotomy m₁ m₂ with hm | rfl | hm
    · rw [Nat.compare_eq_lt.mpr hm, (cmp_eq_lt_iff _ _).mpr (by exact_mod_cast hm)]
    · rw [Nat.compare_eq_eq.mpr rfl, cmp_self_eq_eq]
    · rw [Nat.compare_eq_gt.mpr hm, (cmp_eq_gt_iff _ _).mpr (by exact_mod_cast hm)]
  · have hvalue := value_lt_of_exponent_lt hlt₂ hmin₂ hfull₁ he
    rw [Int.compare_eq_gt.mpr he, (cmp_eq_gt_iff _ _).mpr hvalue]
    rfl

lemma value_positive {m : ℕ} {e : ℤ} {hm : 0 < m} :
    value (.finite .positive m e hm) = m * 2 ^ e := by
  rw [value_finite]
  simp [Sign.apply]

lemma value_negative {m : ℕ} {e : ℤ} {hm : 0 < m} :
    value (.finite .negative m e hm) = -(m * 2 ^ e) := by
  rw [value_finite]
  simp [Sign.apply]

lemma mul_zpow_pos {m : ℕ} (hm : 0 < m) (e : ℤ) : (0 : ℝ) < m * 2 ^ e := by
  have : (0 : ℝ) < m := by exact_mod_cast hm
  positivity

/-- Canonical numbers compare as their values. -/
theorem compare_eq_cmp (hu : Canonical f u) (hv : Canonical f v) (hu' : u.isFinite = true)
    (hv' : v.isFinite = true) : u.compare v = some (cmp (value u) (value v)) := by
  match u, v with
  | .zero _, .zero _ =>
    show some Ordering.eq = some (cmp 0 0)
    rw [cmp_self_eq_eq]
  | .zero _, .finite .positive m e hm =>
    show some Ordering.lt = _
    rw [value_positive, value_zero, (cmp_eq_lt_iff _ _).mpr (mul_zpow_pos hm e)]
  | .zero _, .finite .negative m e hm =>
    show some Ordering.gt = _
    rw [value_negative, value_zero, (cmp_eq_gt_iff _ _).mpr (neg_neg_of_pos (mul_zpow_pos hm e))]
  | .finite .positive m e hm, .zero _ =>
    show some Ordering.gt = _
    rw [value_positive, value_zero, (cmp_eq_gt_iff _ _).mpr (mul_zpow_pos hm e)]
  | .finite .negative m e hm, .zero _ =>
    show some Ordering.lt = _
    rw [value_negative, value_zero, (cmp_eq_lt_iff _ _).mpr (neg_neg_of_pos (mul_zpow_pos hm e))]
  | .finite .positive m₁ e₁ hm₁, .finite .negative m₂ e₂ hm₂ =>
    show some Ordering.gt = _
    have h₁ := mul_zpow_pos hm₁ e₁
    have h₂ := mul_zpow_pos hm₂ e₂
    rw [value_positive, value_negative, (cmp_eq_gt_iff _ _).mpr (by linarith)]
  | .finite .negative m₁ e₁ hm₁, .finite .positive m₂ e₂ hm₂ =>
    show some Ordering.lt = _
    have h₁ := mul_zpow_pos hm₁ e₁
    have h₂ := mul_zpow_pos hm₂ e₂
    rw [value_positive, value_negative, (cmp_eq_lt_iff _ _).mpr (by linarith)]
  | .finite .positive m₁ e₁ hm₁, .finite .positive m₂ e₂ hm₂ =>
    show some ((compare e₁ e₂).then (compare m₁ m₂)) = _
    rw [compare_then_eq hu hv, value_positive, value_positive]
  | .finite .negative m₁ e₁ hm₁, .finite .negative m₂ e₂ hm₂ =>
    show some ((compare e₁ e₂).then (compare m₁ m₂)).swap = _
    have hanti : StrictAnti (Neg.neg : ℝ → ℝ) := fun _ _ hlt => neg_lt_neg hlt
    rw [compare_then_eq hu hv, value_negative, value_negative, cmp_swap, hanti.cmp_map_eq]
  | .infinity _, _ | .notANumber, _ => cases hu'
  | .zero _, .infinity _ | .zero _, .notANumber => cases hv'
  | .finite .., .infinity _ | .finite .., .notANumber => cases hv'

end Compare

/-! ## Packed numbers -/

/-- Numbers that are packed in a format, with the operations of the model. -/
class Packed (α : Type) extends Add α, Sub α, Mul α, Div α, Neg α, LT α, LE α where
  format : Float.Model.Format
  two_le_exponentBits : 2 ≤ format.exponentBits
  pattern : α → BitVec format.numBits
  ofPattern : BitVec format.numBits → α
  pattern_ofPattern : ∀ b, pattern (ofPattern b) = pack format (unpack format b)
  pattern_add : ∀ x y : α, pattern (x + y) =
    pack format (.add format (unpack format (pattern x)) (unpack format (pattern y)))
  pattern_sub : ∀ x y : α, pattern (x - y) =
    pack format (.sub format (unpack format (pattern x)) (unpack format (pattern y)))
  pattern_mul : ∀ x y : α, pattern (x * y) =
    pack format (.mul format (unpack format (pattern x)) (unpack format (pattern y)))
  pattern_div : ∀ x y : α, pattern (x / y) =
    pack format (.div format (unpack format (pattern x)) (unpack format (pattern y)))
  pattern_neg : ∀ x : α, pattern (-x) = pack format (unpack format (pattern x)).neg
  lt_iff : ∀ x y : α, x < y ↔ (unpack format (pattern x)).lt (unpack format (pattern y)) = true
  le_iff : ∀ x y : α, x ≤ y ↔ (unpack format (pattern x)).le (unpack format (pattern y)) = true

instance : Packed Float32 where
  format := .binary32
  two_le_exponentBits := by decide
  pattern x := x.toBits.toBitVec
  ofPattern b := Float32.ofBits (UInt32.ofBitVec b)
  pattern_ofPattern _ := rfl
  pattern_add _ _ := rfl
  pattern_sub _ _ := rfl
  pattern_mul _ _ := rfl
  pattern_div _ _ := rfl
  pattern_neg _ := rfl
  lt_iff x y := by
    show decide (x.toModel < y.toModel) = true ↔ _
    rw [decide_eq_true_iff]
    rfl
  le_iff x y := by
    show decide (x.toModel ≤ y.toModel) = true ↔ _
    rw [decide_eq_true_iff]
    rfl

instance : Packed Float where
  format := .binary64
  two_le_exponentBits := by decide
  pattern x := x.toBits.toBitVec
  ofPattern b := Float.ofBits (UInt64.ofBitVec b)
  pattern_ofPattern _ := rfl
  pattern_add _ _ := rfl
  pattern_sub _ _ := rfl
  pattern_mul _ _ := rfl
  pattern_div _ _ := rfl
  pattern_neg _ := rfl
  lt_iff x y := by
    show decide (x.toModel < y.toModel) = true ↔ _
    rw [decide_eq_true_iff]
    rfl
  le_iff x y := by
    show decide (x.toModel ≤ y.toModel) = true ↔ _
    rw [decide_eq_true_iff]
    rfl

/-- The format of a type of numbers. -/
abbrev formatOf (α : Type) [Packed α] : Float.Model.Format := Packed.format α

section Packed

variable {α : Type} [Packed α]

/-- The unpacked number. -/
def unpacked (x : α) : UnpackedFloat := unpack _ (Packed.pattern x)

/-- The real that a finite number stands for; the others stand for zero. -/
noncomputable def val (x : α) : ℝ := value (unpacked x)

/-- Neither infinite nor a NaN. -/
def IsFinite (x : α) : Prop := (unpacked x).isFinite = true

variable {x y z : α}

lemma canonical_unpacked (x : α) : Canonical (formatOf α) (unpacked x) := canonical_unpack _

/-- A finite number is a zero or has a mantissa. -/
lemma IsFinite.unpacked_cases (h : IsFinite x) :
    (∃ s, unpacked x = .zero s) ∨ ∃ s m e hm, unpacked x = .finite s m e hm := by
  rw [IsFinite] at h
  generalize unpacked x = u at h ⊢
  cases u with
  | zero s => exact .inl ⟨s, rfl⟩
  | finite s m e hm => exact .inr ⟨s, m, e, hm, rfl⟩
  | infinity | notANumber => cases h

lemma IsFinite.abs_val_lt (h : IsFinite x) : |val x| < limit (formatOf α) :=
  abs_value_unpack_lt Packed.two_le_exponentBits _ h

/-- A finite number is on the grid of its format. -/
lemma IsFinite.rounded_val (h : IsFinite x) : rounded (formatOf α) (val x) = val x :=
  ((canonical_unpacked x).rounds h).value_eq.symm

/-- A result that rounds to less than the limit is packed without loss. -/
lemma finite_of_rounds {u : UnpackedFloat} {r : ℝ} (hz : Packed.pattern z = pack _ u)
    (hu : Rounds (formatOf α) r u) (h : |rounded (formatOf α) r| < limit (formatOf α)) :
    IsFinite z ∧ val z = rounded (formatOf α) r := by
  have hunpacked : unpacked z = u := by
    rw [unpacked, hz]
    apply unpack_pack Packed.two_le_exponentBits hu.canonical hu.isFinite
    rwa [hu.value_eq]
  rw [IsFinite, val, hunpacked]
  exact ⟨hu.isFinite, hu.value_eq⟩

/-- A result that does not round to less than the limit is infinite. -/
lemma infinite_of_rounds {u : UnpackedFloat} {r : ℝ} (hz : Packed.pattern z = pack _ u)
    (hu : Rounds (formatOf α) r u) (h : limit (formatOf α) ≤ |rounded (formatOf α) r|) :
    ∃ s, unpacked z = .infinity s ∧ (0 ≤ rounded (formatOf α) r → s = .positive) := by
  rw [unpacked, hz]
  rw [← hu.value_eq] at h ⊢
  exact unpack_pack_of_limit_le Packed.two_le_exponentBits hu.canonical h

lemma finite_add (hx : IsFinite x) (hy : IsFinite y)
    (h : |rounded (formatOf α) (val x + val y)| < limit (formatOf α)) :
    IsFinite (x + y) ∧ val (x + y) = rounded (formatOf α) (val x + val y) :=
  finite_of_rounds (Packed.pattern_add x y)
    (rounds_add (canonical_unpacked x) (canonical_unpacked y) hx hy) h

lemma finite_sub (hx : IsFinite x) (hy : IsFinite y)
    (h : |rounded (formatOf α) (val x - val y)| < limit (formatOf α)) :
    IsFinite (x - y) ∧ val (x - y) = rounded (formatOf α) (val x - val y) :=
  finite_of_rounds (Packed.pattern_sub x y)
    (rounds_sub (canonical_unpacked x) (canonical_unpacked y) hx hy) h

lemma finite_mul (hx : IsFinite x) (hy : IsFinite y)
    (h : |rounded (formatOf α) (val x * val y)| < limit (formatOf α)) :
    IsFinite (x * y) ∧ val (x * y) = rounded (formatOf α) (val x * val y) :=
  finite_of_rounds (Packed.pattern_mul x y)
    (rounds_mul (canonical_unpacked x) (canonical_unpacked y) hx hy) h

lemma finite_div (hx : IsFinite x) (hy : IsFinite y) (hy0 : val y ≠ 0)
    (h : |rounded (formatOf α) (val x / val y)| < limit (formatOf α)) :
    IsFinite (x / y) ∧ val (x / y) = rounded (formatOf α) (val x / val y) :=
  finite_of_rounds (Packed.pattern_div x y) (rounds_div hy0 hx hy) h

lemma finite_neg (hx : IsFinite x) : IsFinite (-x) ∧ val (-x) = -val x := by
  have hrounds : Rounds (formatOf α) (-val x) (unpacked x).neg := by
    have h := (canonical_unpacked x).neg.rounds (by rwa [isFinite_neg])
    rwa [value_neg] at h
  have hvalue : rounded (formatOf α) (-val x) = -val x := by
    rw [rounded_neg, hx.rounded_val]
  have h := finite_of_rounds (Packed.pattern_neg x) hrounds
    (by rw [hvalue, abs_neg]; exact hx.abs_val_lt)
  rwa [hvalue] at h

lemma lt_iff_val_lt (hx : IsFinite x) (hy : IsFinite y) : x < y ↔ val x < val y := by
  have h := compare_eq_cmp (canonical_unpacked x) (canonical_unpacked y) hx hy
  rw [Packed.lt_iff, UnpackedFloat.lt]
  show ((unpacked x).compare (unpacked y) == some .lt) = true ↔ _
  rw [h, beq_iff_eq, Option.some_inj, cmp_eq_lt_iff]
  rfl

lemma le_iff_val_le (hx : IsFinite x) (hy : IsFinite y) : x ≤ y ↔ val x ≤ val y := by
  have h := compare_eq_cmp (canonical_unpacked x) (canonical_unpacked y) hx hy
  rw [Packed.le_iff, UnpackedFloat.le]
  show (((unpacked x).compare (unpacked y)).any (·.isLE)) = true ↔ _
  rw [h, Option.any_some, ← not_lt, ← cmp_eq_gt_iff]
  show (cmp (val x) (val y)).isLE = true ↔ ¬ cmp (val x) (val y) = .gt
  cases cmp (val x) (val y) <;> decide

end Packed

end Arbor.Number
