import Arbor.Proofs.Decimal.Nearest
import Arbor.Proofs.Decimal.Numerals

/-!
# Shortest decimals lie in their cells

The search for the shortest decimal ends on a decimal of the cell (`covers_shortest`): once the
decimal grid is finer than a quarter of the unit of the magnitude, the neighbour below the magnitude
is one, and of single-precision numbers eight digits behind the leading one are that fine.
-/

namespace Arbor.Decimal

open Number (Format)

/-- The real that a scaled decimal stands for. -/
noncomputable def Scaled.val (s : Scaled) : ℝ := s.digits * 10 ^ s.exponent

namespace Cell

/-- A real of a cell or at its ends. -/
def Covers (c : Cell) (r : ℝ) : Prop :=
  c.low * 2 ^ c.exponent ≤ r ∧ r ≤ c.high * 2 ^ c.exponent

variable {c : Cell} {k : ℤ} {d n : ℕ}

/-- The scale on which units of a cell and of a grid are both natural numbers. -/
noncomputable def scale (c : Cell) (k : ℤ) : ℝ := 10 ^ (-k).toNat * 2 ^ (-c.exponent).toNat

lemma scale_pos : 0 < c.scale k := by
  unfold scale
  positivity

lemma cast_binary : (c.binary k n : ℝ) = n * 2 ^ c.exponent * c.scale k := by
  have h := zpow_mul_pow_toNat (two_ne_zero' ℝ) c.exponent
  rw [binary, scale, Nat.pow_eq, Nat.pow_eq]
  push_cast
  rw [← h]
  ring

lemma cast_decimal : (c.decimal k d : ℝ) = d * 10 ^ k * c.scale k := by
  have h := zpow_mul_pow_toNat (by norm_num : (10 : ℝ) ≠ 0) k
  rw [decimal, scale, Nat.pow_eq, Nat.pow_eq]
  push_cast
  rw [← h]
  ring

lemma binary_le_decimal_iff :
    c.binary k n ≤ c.decimal k d ↔ (n : ℝ) * 2 ^ c.exponent ≤ d * 10 ^ k := by
  rw [← Nat.cast_le (α := ℝ), cast_binary, cast_decimal, mul_le_mul_iff_left₀ scale_pos]

lemma decimal_le_binary_iff :
    c.decimal k d ≤ c.binary k n ↔ (d : ℝ) * 10 ^ k ≤ n * 2 ^ c.exponent := by
  rw [← Nat.cast_le (α := ℝ), cast_binary, cast_decimal, mul_le_mul_iff_left₀ scale_pos]

lemma covers_of_holds (h : c.holds k d = true) : c.Covers (d * 10 ^ k) := by
  have hle : c.binary k c.low ≤ c.decimal k d ∧ c.decimal k d ≤ c.binary k c.high := by
    rw [holds] at h
    split_ifs at h
    all_goals
      simp only [Bool.and_eq_true, decide_eq_true_eq] at h
      omega
  exact ⟨binary_le_decimal_iff.mp hle.1, decimal_le_binary_iff.mp hle.2⟩

/-- A decimal strictly between the ends of a cell is held. -/
lemma holds_of_lt (h₁ : c.binary k c.low < c.decimal k d) (h₂ : c.decimal k d < c.binary k c.high) :
    c.holds k d = true := by
  rw [holds]
  split_ifs
  all_goals
    simp only [Bool.and_eq_true, decide_eq_true_eq]
    omega

end Cell

section Search

variable {c : Cell} {tie : Tie} {top k : ℤ} {fuel n : ℕ}

/-- A grid whose unit is no larger than a unit of the cell has a decimal in it. -/
lemma exists_nearestOnGrid (hlow : c.low < c.middle) (hhigh : c.middle < c.high)
    (hk : (10 : ℝ) ^ k ≤ 2 ^ c.exponent) : ∃ d, nearestOnGrid c tie k = some d := by
  have hunit : c.decimal k 1 ≤ c.binary k 1 := by
    rw [Cell.decimal_le_binary_iff]
    simpa using hk
  have hpos : 0 < c.decimal k 1 := by
    rw [Cell.decimal, Nat.one_mul]
    exact Nat.mul_pos (Nat.pow_pos (by norm_num)) (Nat.pow_pos (by norm_num))
  have hbinary : ∀ {a b : ℕ}, a + 1 ≤ b → c.binary k a + c.binary k 1 ≤ c.binary k b := by
    intro a b hab
    have hadd : c.binary k a + c.binary k 1 = c.binary k (a + 1) := by
      unfold Cell.binary
      ring
    rw [hadd]
    unfold Cell.binary
    gcongr
  have hdecimal : ∀ d, c.decimal k d = d * c.decimal k 1 := fun d => by
    unfold Cell.decimal
    ring
  -- The neighbour below the magnitude is less than a unit of the grid away from it.
  have hdown : c.holds k (c.binary k c.middle / c.decimal k 1) = true := by
    have hdiv := Nat.div_add_mod (c.binary k c.middle) (c.decimal k 1)
    have hmod := Nat.mod_lt (c.binary k c.middle) hpos
    have hl := hbinary hlow
    have hh := hbinary hhigh
    apply Cell.holds_of_lt <;> rw [hdecimal, Nat.mul_comm] <;> omega
  unfold nearestOnGrid
  dsimp only
  rw [hdown]
  split
  · next h _ => cases h
  · exact ⟨_, rfl⟩
  · exact ⟨_, rfl⟩
  · cases tie <;> split_ifs <;> exact ⟨_, rfl⟩

/-- The search ends on a decimal of the cell, on a grid that is not finer than one that has such a
decimal. -/
lemma covers_searchGrids (fuel : ℕ) {last : ℕ} (hn : n ≤ last) (hfuel : last < n + fuel)
    (h : ∃ d, nearestOnGrid c tie (top - last) = some d) :
    c.Covers (searchGrids c tie top fuel n).val ∧
      top - last ≤ (searchGrids c tie top fuel n).exponent := by
  induction fuel generalizing n with
  | zero => omega
  | succ fuel ih =>
    rw [searchGrids]
    split
    · next d hd =>
      refine ⟨Cell.covers_of_holds (holds_of_nearestOnGrid hd), ?_⟩
      dsimp only
      omega
    · next hnone =>
      rcases hn.lt_or_eq with hlt | rfl
      · exact ih hlt (by omega)
      · obtain ⟨d, hd⟩ := h
        rw [hd] at hnone
        cases hnone

lemma val_trim (fuel : ℕ) (s : Scaled) : (s.trim fuel).val = s.val := by
  induction fuel generalizing s with
  | zero => rfl
  | succ fuel ih =>
    rw [Scaled.trim]
    split_ifs with h
    · have hdigits : (s.digits : ℝ) = (s.digits / 10 : ℕ) * 10 := by
        exact_mod_cast (Nat.div_mul_cancel (Nat.dvd_of_mod_eq_zero h)).symm
      rw [ih, Scaled.val, Scaled.val, hdigits, zpow_add_one₀ (by norm_num)]
      ring
    · rfl

lemma exponent_le_trim (fuel : ℕ) (s : Scaled) : s.exponent ≤ (s.trim fuel).exponent := by
  induction fuel generalizing s with
  | zero => rfl
  | succ fuel ih =>
    rw [Scaled.trim]
    split_ifs
    · have := ih ⟨s.digits / 10, s.exponent + 1⟩
      dsimp only at this
      omega
    · rfl

end Search

/-! ## Single-precision numbers -/

/-- An estimate of the decimal exponent of a power of two is too high by one at most. -/
lemma zpow_estimate_le {L : ℤ} (h₁ : -151 ≤ L) (h₂ : L < 150) :
    (10 : ℝ) ^ (L * 30103 / 100000 - 1) ≤ 2 ^ L := by
  have hall : ∀ i : Fin 301, Cell.decimal ⟨0, 0, 0, i - 151, true⟩
      ((i - 151 : ℤ) * 30103 / 100000 - 1) 1 ≤
      Cell.binary ⟨0, 0, 0, i - 151, true⟩ ((i - 151 : ℤ) * 30103 / 100000 - 1) 1 := by
    decide +kernel
  obtain ⟨i, rfl⟩ : ∃ i : Fin 301, (i : ℤ) - 151 = L :=
    ⟨⟨(L + 151).toNat, by omega⟩, by rw [Int.toNat_of_nonneg (by omega)]; ring⟩
  simpa using Cell.decimal_le_binary_iff.mp (hall i)

section Single

variable {m : ℕ} {q : ℤ} (hm : 0 < m) (hm' : m < 2 ^ 24) (hq : -149 ≤ q) (hq' : q ≤ 104)

lemma middle_ofMagnitude (f : Format) : ((Cell.ofMagnitude f m q).middle : ℝ) *
    2 ^ (Cell.ofMagnitude f m q).exponent = m * 2 ^ q := by
  show ((4 * m : ℕ) : ℝ) * 2 ^ (q - 2) = m * 2 ^ q
  rw [zpow_sub₀ two_ne_zero]
  push_cast
  norm_num
  ring

include hm hm' hq hq'

/-- The leading power of ten is one that the magnitude reaches, and not a tiny one. -/
lemma leading_spec : -46 ≤ (Cell.ofMagnitude .single m q).leading ∧
    (10 : ℝ) ^ (Cell.ofMagnitude .single m q).leading ≤ m * 2 ^ q := by
  have hreached : ∀ {k : ℤ}, (Cell.ofMagnitude .single m q).decimal k 1 ≤
      (Cell.ofMagnitude .single m q).binary k (Cell.ofMagnitude .single m q).middle →
      (10 : ℝ) ^ k ≤ m * 2 ^ q := by
    intro k hk
    rw [Cell.decimal_le_binary_iff, middle_ofMagnitude] at hk
    simpa using hk
  have hlog : 2 ≤ (4 * m).log2 := (Nat.le_log2 (by omega)).mpr (by omega)
  have hlog' : (4 * m).log2 < 26 := (Nat.log2_lt (by omega)).mpr (by omega)
  have hself : (2 : ℝ) ^ (((4 * m).log2 : ℤ) + (q - 2)) ≤ m * 2 ^ q := by
    rw [← middle_ofMagnitude .single, zpow_add₀ two_ne_zero, zpow_natCast]
    refine mul_le_mul_of_nonneg_right ?_ (by positivity)
    exact_mod_cast Nat.log2_self_le (n := 4 * m) (by omega)
  unfold Cell.leading
  dsimp only
  split_ifs with h₁ h₂
  · exact ⟨by show -46 ≤ (((4 * m).log2 : ℤ) + (q - 2)) * 30103 / 100000 + 1; omega,
      hreached (by simpa using h₁)⟩
  · exact ⟨by show -46 ≤ (((4 * m).log2 : ℤ) + (q - 2)) * 30103 / 100000; omega,
      hreached (by simpa using h₂)⟩
  · refine ⟨by show -46 ≤ (((4 * m).log2 : ℤ) + (q - 2)) * 30103 / 100000 - 1; omega, ?_⟩
    exact (zpow_estimate_le (L := ((4 * m).log2 : ℤ) + (q - 2)) (by omega) (by omega)).trans hself

/-- **Shortest decimals.**  The shortest decimal of a single-precision magnitude is in its cell. -/
theorem covers_shortest (tie : Tie) :
    (Cell.ofMagnitude .single m q).Covers (shortest .single tie m q).val ∧
      -62 ≤ (shortest .single tie m q).exponent := by
  obtain ⟨hleading, hpow⟩ := leading_spec hm hm' hq hq'
  have hgrid : ∃ d, nearestOnGrid (Cell.ofMagnitude .single m q) tie
      ((Cell.ofMagnitude .single m q).leading - (8 : ℕ)) = some d := by
    apply exists_nearestOnGrid
    · show 4 * m - _ < 4 * m
      split_ifs <;> omega
    · show 4 * m < 4 * m + 2
      omega
    · -- A magnitude has less than `2^26` quarters of its unit.
      show (10 : ℝ) ^ (_ - _) ≤ 2 ^ (q - 2)
      have hsize : (m : ℝ) ≤ 2 ^ 24 := by exact_mod_cast hm'.le
      rw [zpow_sub₀ (by norm_num), zpow_natCast, div_le_iff₀ (by positivity)]
      calc _ ≤ m * (2 : ℝ) ^ q := hpow
        _ ≤ 2 ^ 24 * 2 ^ q := by gcongr
        _ = 2 ^ (q - 2) * 2 ^ 26 := by
          rw [zpow_sub₀ two_ne_zero]
          norm_num
          ring
        _ ≤ 2 ^ (q - 2) * 10 ^ 8 := by gcongr; norm_num
  obtain ⟨hcovers, hexponent⟩ := covers_searchGrids 17 (n := 0) (by omega) (by omega) hgrid
  have htrim := exponent_le_trim 20 (searchGrids (Cell.ofMagnitude .single m q) tie
    (Cell.ofMagnitude .single m q).leading 17 0)
  unfold shortest
  dsimp only
  rw [val_trim]
  exact ⟨hcovers, by omega⟩

end Single

end Arbor.Decimal
