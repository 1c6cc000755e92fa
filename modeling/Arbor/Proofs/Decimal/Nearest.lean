import Arbor.Decimal.Reading
import Arbor.Proofs.Number.Narrowing
import Mathlib.Tactic.FieldSimp

/-!
# Decimals are read between their neighbours

Reading a decimal as a double rounds a quotient of natural numbers.  What is needed of rounding is
that it does not pass a double: a quotient between two doubles is read as a double between them
(`exists_nearestDouble`).
-/

namespace Arbor.Decimal

open Number

lemma zpow_mul_pow_toNat {b : ℝ} (hb : b ≠ 0) (k : ℤ) : b ^ k * b ^ (-k).toNat = b ^ k.toNat := by
  rw [← zpow_natCast, ← zpow_natCast, ← zpow_add₀ hb]
  congr 1
  omega

variable {num den p n : ℕ}

lemma le_divEven (hden : 0 < den) (h : n * den ≤ num) : n ≤ Format.divEven num den := by
  have hquotient : n ≤ num / den := (Nat.le_div_iff_mul_le hden).mpr h
  unfold Format.divEven
  dsimp only
  split_ifs <;> omega

lemma divEven_le (hden : 0 < den) (h : num ≤ n * den) : Format.divEven num den ≤ n := by
  have hdiv := Nat.div_add_mod num den
  have hmod := Nat.mod_lt num hden
  have hquotient : num / den ≤ n := Nat.div_le_of_le_mul (by rwa [Nat.mul_comm])
  unfold Format.divEven
  dsimp only
  rcases hquotient.lt_or_eq with hlt | heq
  · split_ifs <;> omega
  · rw [heq, Nat.mul_comm] at hdiv
    rw [if_pos (by omega), heq]

/-- A size as a significand and the number of its unit. -/
lemma exists_significand (p : ℕ) : ∃ s u : ℕ, p = s + u * 2 ^ 52 ∧ s < 2 ^ 53 ∧
    (u = 0 ∨ 2 ^ 52 ≤ s) ∧ magnitude .binary64 p = s * 2 ^ ((u : ℤ) - 1074) := by
  have hmod := Nat.mod_lt p (Nat.two_pow_pos 52)
  rw [magnitude_binary64]
  split_ifs with hfield
  · refine ⟨p % 2 ^ 52, 0, by omega, by omega, .inl rfl, ?_⟩
    norm_num
  · refine ⟨p % 2 ^ 52 + 2 ^ 52, p / 2 ^ 52 - 1, by omega, by omega, .inr (by omega), ?_⟩
    rw [add_comm (2 ^ 52 : ℝ), neg_add_eq_sub]
    norm_num

lemma scaled_fst (q : ℤ) : ((Format.scaled num den q).1 : ℝ) = num * 2 ^ (-q).toNat := by
  simp [Format.scaled, Nat.pow_eq]

lemma scaled_snd (q : ℤ) : ((Format.scaled num den q).2 : ℝ) = den * 2 ^ q.toNat := by
  simp [Format.scaled, Nat.pow_eq]

lemma scaled_snd_pos (num : ℕ) (hden : 0 < den) (q : ℤ) : 0 < (Format.scaled num den q).2 :=
  Nat.mul_pos hden (Nat.pow_pos (by norm_num))

/-- Comparing a quotient with multiples of a power of two, in natural numbers. -/
lemma scaled_le_iff (hden : 0 < den) (q : ℤ) : (Format.scaled num den q).1 ≤
    n * (Format.scaled num den q).2 ↔ (num : ℝ) / den ≤ n * 2 ^ q := by
  have hscale : (n : ℝ) * (den * 2 ^ q.toNat) = n * 2 ^ q * den * 2 ^ (-q).toNat := by
    rw [← zpow_mul_pow_toNat two_ne_zero]
    ring
  rw [← Nat.cast_le (α := ℝ), Nat.cast_mul, scaled_fst, scaled_snd, hscale,
    mul_le_mul_iff_left₀ (by positivity), div_le_iff₀ (by exact_mod_cast hden)]

lemma le_scaled_iff (num : ℕ) (hden : 0 < den) (q : ℤ) : n * (Format.scaled num den q).2 ≤
    (Format.scaled num den q).1 ↔ n * (2 : ℝ) ^ q ≤ num / den := by
  have hscale : (n : ℝ) * (den * 2 ^ q.toNat) = n * 2 ^ q * den * 2 ^ (-q).toNat := by
    rw [← zpow_mul_pow_toNat two_ne_zero]
    ring
  rw [← Nat.cast_le (α := ℝ), Nat.cast_mul, scaled_fst, scaled_snd, hscale,
    mul_le_mul_iff_left₀ (by positivity), le_div_iff₀ (by exact_mod_cast hden)]

lemma zpow_log2_le (hn : 0 < n) :
    (2 : ℝ) ^ (n.log2 : ℤ) ≤ n ∧ (n : ℝ) < 2 ^ ((n.log2 : ℤ) + 1) := by
  constructor
  · exact_mod_cast Nat.log2_self_le hn.ne'
  · exact_mod_cast Nat.lt_log2_self

/-- The quotient lies between powers of two that the logarithms tell. -/
lemma zpow_log2_sub_le_div (hnum : 0 < num) (hden : 0 < den) :
    (2 : ℝ) ^ ((num.log2 : ℤ) - (den.log2 + 1)) ≤ num / den ∧
      (num : ℝ) / den < 2 ^ ((num.log2 : ℤ) + 1 - den.log2) := by
  have hden' : (0 : ℝ) < den := by exact_mod_cast hden
  obtain ⟨hn₁, hn₂⟩ := zpow_log2_le hnum
  obtain ⟨hd₁, hd₂⟩ := zpow_log2_le hden
  rw [zpow_sub₀ two_ne_zero, zpow_sub₀ two_ne_zero]
  constructor <;> gcongr

/-- Whether a quotient has less than `2^53` of a unit. -/
lemma fits_iff (num : ℕ) (hden : 0 < den) (q : ℤ) :
    num * Nat.pow 2 (-q).toNat <
      den * Nat.pow 2 q.toNat * Nat.pow 2 (Format.double.fractionBits + 1) ↔
        (num : ℝ) / den < 2 ^ 53 * 2 ^ q := by
  have h := (le_scaled_iff num (n := 2 ^ 53) hden q).not
  rw [Nat.cast_pow, Nat.cast_two, not_le, not_le, Nat.mul_comm (2 ^ 53)] at h
  exact h

/-- The unit that a quotient is rounded to: the quotient has less than `2^53` of it, and at least
`2^52` unless the unit is the smallest. -/
lemma nearest_double (hnum : 0 < num) (hden : 0 < den) : ∃ u : ℕ,
    (num : ℝ) / den < 2 ^ 53 * 2 ^ ((u : ℤ) - 1074) ∧
    (u = 0 ∨ 2 ^ 52 * (2 : ℝ) ^ ((u : ℤ) - 1074) ≤ num / den) ∧
    Format.nearest .double num den = min Format.double.infinity
      (Format.divEven (Format.scaled num den (u - 1074)).1
        (Format.scaled num den (u - 1074)).2 + u * 2 ^ 52) := by
  obtain ⟨hlow, hhigh⟩ := zpow_log2_sub_le_div hnum hden
  have hmin : Format.double.minExponent = -1074 := by decide
  have hbits : (Format.double.fractionBits : ℤ) = 52 := rfl
  obtain ⟨v, hv⟩ : ∃ v : ℕ, max Format.double.minExponent
      ((num.log2 : ℤ) - den.log2 - 1 - Format.double.fractionBits) = (v : ℤ) - 1074 :=
    ⟨(max (-1074) ((num.log2 : ℤ) - den.log2 - 53) + 1074).toNat, by omega⟩
  have hunit : ∀ u : ℕ, ((u : ℤ) - 1074 - Format.double.minExponent).toNat = u := by
    intro u
    omega
  have hfits := fits_iff num hden ((v : ℤ) - 1074)
  rw [Format.nearest, if_neg hnum.ne']
  dsimp only
  rw [hv]
  by_cases hfit : (num : ℝ) / den < 2 ^ 53 * 2 ^ ((v : ℤ) - 1074)
  · refine ⟨v, hfit, ?_, ?_⟩
    · rcases Nat.eq_zero_or_pos v with hzero | hpos
      · exact .inl hzero
      · refine .inr (le_trans (le_of_eq ?_) hlow)
        rw [← zpow_natCast, ← zpow_add₀ two_ne_zero]
        congr 1
        omega
    · rw [if_pos (hfits.mpr hfit), hunit]
      rfl
  · refine ⟨v + 1, ?_, .inr ?_, ?_⟩
    · refine hhigh.trans_le (le_trans ?_ (le_of_eq (zpow_add₀ two_ne_zero 53 _)))
      exact zpow_le_zpow_right₀ one_le_two (by omega)
    · refine le_trans (le_of_eq ?_) (not_lt.mp hfit)
      push_cast
      rw [add_sub_right_comm, zpow_add_one₀ two_ne_zero]
      ring
    · have hnext : ((v : ℤ) - 1074 + 1) = ((v + 1 : ℕ) : ℤ) - 1074 := by
        push_cast
        ring
      rw [if_neg (fun h => hfit (hfits.mp h)), hnext, hunit]
      rfl

/-- Rounding a quotient does not pass a double below it. -/
lemma le_nearest (hnum : 0 < num) (hden : 0 < den) (hp : p ≤ Format.double.infinity)
    (h : magnitude .binary64 p ≤ num / den) : p ≤ Format.nearest .double num den := by
  obtain ⟨u, hhigh, hlow, heq⟩ := nearest_double hnum hden
  obtain ⟨s, t, rfl, hs, ht, hmagnitude⟩ := exists_significand p
  rw [hmagnitude] at h
  rw [heq, le_min_iff]
  refine ⟨hp, ?_⟩
  have hpos := scaled_snd_pos num hden (u - 1074)
  rcases lt_trichotomy t u with hlt | rfl | hgt
  · -- The unit of the quotient is larger, so the quotient has a full significand.
    have hfull : 2 ^ 52 ≤ Format.divEven (Format.scaled num den (u - 1074)).1
        (Format.scaled num den (u - 1074)).2 := by
      apply le_divEven hpos
      rw [le_scaled_iff _ hden]
      exact_mod_cast hlow.resolve_left (by omega)
    omega
  · exact Nat.add_le_add_right (le_divEven hpos ((le_scaled_iff _ hden _).mpr h)) _
  · have hnext : (2 : ℝ) ^ ((u : ℤ) - 1074) * 2 ≤ 2 ^ ((t : ℤ) - 1074) := by
      rw [← zpow_add_one₀ two_ne_zero]
      exact zpow_le_zpow_right₀ one_le_two (by omega)
    have hfull : (2 : ℝ) ^ 52 ≤ s := by exact_mod_cast ht.resolve_left (by omega)
    refine absurd hhigh (not_lt.mpr ?_)
    calc (2 : ℝ) ^ 53 * (2 : ℝ) ^ ((u : ℤ) - 1074) =
          (2 : ℝ) ^ 52 * ((2 : ℝ) ^ ((u : ℤ) - 1074) * 2) := by ring
      _ ≤ s * (2 : ℝ) ^ ((t : ℤ) - 1074) := by gcongr
      _ ≤ num / den := h

/-- Nor does it pass a double above it. -/
lemma nearest_le (hnum : 0 < num) (hden : 0 < den) (h : num / den ≤ magnitude .binary64 p) :
    Format.nearest .double num den ≤ p := by
  obtain ⟨u, hhigh, hlow, heq⟩ := nearest_double hnum hden
  obtain ⟨s, t, rfl, hs, ht, hmagnitude⟩ := exists_significand p
  rw [hmagnitude] at h
  rw [heq]
  refine (min_le_right _ _).trans ?_
  have hpos := scaled_snd_pos num hden (u - 1074)
  rcases lt_trichotomy u t with hlt | rfl | hgt
  · -- The unit of the quotient is smaller, so rounding may fill its significand at most.
    have hfull : Format.divEven (Format.scaled num den (u - 1074)).1
        (Format.scaled num den (u - 1074)).2 ≤ 2 ^ 53 := by
      apply divEven_le hpos
      rw [scaled_le_iff hden]
      exact_mod_cast hhigh.le
    have := ht.resolve_left (by omega)
    omega
  · exact Nat.add_le_add_right (divEven_le hpos ((scaled_le_iff hden _).mpr h)) _
  · have hnext : (2 : ℝ) ^ ((t : ℤ) - 1074) * 2 ≤ 2 ^ ((u : ℤ) - 1074) := by
      rw [← zpow_add_one₀ two_ne_zero]
      exact zpow_le_zpow_right₀ one_le_two (by omega)
    have hs' : (s : ℝ) < 2 ^ 53 := by exact_mod_cast hs
    refine absurd (hlow.resolve_left (by omega)) (not_le.mpr ?_)
    calc (num : ℝ) / den ≤ s * (2 : ℝ) ^ ((t : ℤ) - 1074) := h
      _ < (2 : ℝ) ^ 53 * (2 : ℝ) ^ ((t : ℤ) - 1074) := by gcongr
      _ = (2 : ℝ) ^ 52 * ((2 : ℝ) ^ ((t : ℤ) - 1074) * 2) := by ring
      _ ≤ (2 : ℝ) ^ 52 * (2 : ℝ) ^ ((u : ℤ) - 1074) := by gcongr

/-- The estimate of the places of a decimal below `2 ^ 129` is far from the limits of doubles. -/
lemma places_le {e : ℤ} (hn : 0 < n) (he : -330 ≤ e) (h : n * (10 : ℝ) ^ e ≤ 2 ^ 129) :
    (n.log2 : ℤ) * 30103 / 100000 + e ≤ 310 := by
  obtain ⟨hlog, -⟩ := zpow_log2_le hn
  have hexponent : ∀ b : ℤ, (2 : ℝ) ^ (b * e) ≤ 10 ^ e → n.log2 + b * e ≤ 129 := by
    intro b hb
    have hpow : (2 : ℝ) ^ ((n.log2 : ℤ) + b * e) ≤ 2 ^ (129 : ℤ) := by
      rw [zpow_add₀ two_ne_zero]
      calc (2 : ℝ) ^ (n.log2 : ℤ) * 2 ^ (b * e) ≤ n * 10 ^ e := by gcongr
        _ ≤ 2 ^ 129 := h
    exact (zpow_le_zpow_iff_right₀ one_lt_two).mp hpow
  rcases le_or_gt 0 e with hpos | hneg
  · have := hexponent 3 (by
      rw [zpow_mul]
      exact zpow_le_zpow_left₀ hpos (by norm_num) (by norm_num))
    omega
  · obtain ⟨k, rfl⟩ : ∃ k : ℕ, e = -k := ⟨(-e).toNat, by omega⟩
    have := hexponent 4 (by
      rw [zpow_mul, zpow_neg, zpow_neg, zpow_natCast, zpow_natCast]
      gcongr
      norm_num)
    omega

/-- **Reading decimals.**  A decimal between two doubles is read as a double between them. -/
theorem exists_nearestDouble (negative : Bool) {e : ℤ} {p₁ p₂ : ℕ} (hn : 0 < n) (he : -330 ≤ e)
    (hp₂ : magnitude .binary64 p₂ ≤ 2 ^ 129)
    (h₁ : magnitude .binary64 p₁ ≤ n * 10 ^ e) (h₂ : n * 10 ^ e ≤ magnitude .binary64 p₂) :
    ∃ p, p₁ ≤ p ∧ p ≤ p₂ ∧
      nearestDouble negative n e = Float.ofBits (p.toUInt64 ||| doubleSign negative) := by
  have hvalue : ((n * Nat.pow 10 e.toNat : ℕ) : ℝ) / (Nat.pow 10 (-e).toNat : ℕ) = n * 10 ^ e := by
    rw [Nat.pow_eq, Nat.pow_eq]
    push_cast
    rw [← zpow_mul_pow_toNat (by norm_num : (10 : ℝ) ≠ 0) e]
    field_simp
  have hpow : ∀ k, 0 < Nat.pow 10 k := fun k => Nat.pow_pos (by norm_num)
  have hplaces := places_le hn he (h₂.trans hp₂)
  have hlimit : p₁ ≤ Format.double.infinity := by
    have hinfinity : magnitude .binary64 Format.double.infinity = limit .binary64 :=
      magnitude_infinitySize (by decide)
    have hle : (2 : ℝ) ^ 129 ≤ limit .binary64 := pow_le_pow_right₀ one_le_two (by decide)
    rw [← (magnitude_strictMono (f := .binary64)).le_iff_le, hinfinity]
    exact ((h₁.trans h₂).trans hp₂).trans hle
  refine ⟨Format.nearest .double (n * Nat.pow 10 e.toNat) (Nat.pow 10 (-e).toNat),
    le_nearest (Nat.mul_pos hn (hpow _)) (hpow _) hlimit (by rwa [hvalue]),
    nearest_le (Nat.mul_pos hn (hpow _)) (hpow _) (by rwa [hvalue]), ?_⟩
  unfold nearestDouble
  dsimp only
  rw [if_neg hn.ne', if_neg (by omega), if_neg (by omega)]
  rfl

end Arbor.Decimal
