import Arbor.Proofs.Number.Accuracy

/-!
# Narrowing takes the nearest single

A double that lies between the midpoints around a single is narrowed to it (`narrow_eq`).  On a
midpoint it is the single with the even pattern that is taken.
-/

namespace Arbor.Number

variable {n p : ℕ}

/-- Below the second power of the unit all singles are multiples of the smallest one. -/
lemma magnitude_of_le (h : n ≤ 2 ^ 24) : magnitude .binary32 n = n * 2 ^ (-149 : ℤ) := by
  rw [magnitude_binary32]
  rcases h.lt_or_eq with hlt | rfl
  · split_ifs with hfield
    · rw [Nat.mod_eq_of_lt (by omega)]
    · have hone : n / 2 ^ 23 = 1 := by omega
      have hrest : n = 2 ^ 23 + n % 2 ^ 23 := by omega
      rw [hone, Nat.sub_self, Nat.cast_zero, add_zero]
      conv_rhs => rw [hrest]
      norm_num
  · norm_num

/-- The midpoint of two neighbours is a double: its fraction goes on with a one. -/
lemma midpoint_eq (h : 2 ^ 23 ≤ n) : (magnitude .binary32 n + magnitude .binary32 (n + 1)) / 2 =
    magnitude .binary64 (n * 2 ^ 29 + 2 ^ 28 + 896 * 2 ^ 52) := by
  have hfield : (n * 2 ^ 29 + 2 ^ 28 + 896 * 2 ^ 52) / 2 ^ 52 = n / 2 ^ 23 + 896 := by omega
  have hfraction : (n * 2 ^ 29 + 2 ^ 28 + 896 * 2 ^ 52) % 2 ^ 52 = n % 2 ^ 23 * 2 ^ 29 + 2 ^ 28 := by
    omega
  have hsucc : magnitude .binary32 (n + 1) = fieldsValue .binary32 (n / 2 ^ 23) (n % 2 ^ 23 + 1) :=
    magnitude_succ n
  obtain ⟨e, he⟩ : ∃ e, n / 2 ^ 23 = e + 1 := ⟨n / 2 ^ 23 - 1, by omega⟩
  have hexp : (-1074 : ℤ) + ((e + 1 + 896 - 1 : ℕ) : ℤ) = -149 + (e : ℤ) + (-29) := by omega
  have hmin : Float.Model.Format.binary32.minExponent = -149 := rfl
  have hmantissa : Float.Model.Format.binary32.mantissaBitsWithoutImplicit = 23 := rfl
  rw [hsucc, fieldsValue, magnitude_binary32, magnitude_binary64, hfield, hfraction, he, hmin,
    hmantissa, if_neg (by omega), if_neg (by omega), if_neg (by omega), Nat.add_sub_cancel, hexp,
    zpow_add₀ (by norm_num : (2 : ℝ) ≠ 0) (-149 + (e : ℤ))]
  push_cast
  norm_num
  ring

/-- Odd numbers of a small unit are doubles. -/
lemma exists_magnitude_eq {s u : ℕ} (hs : 0 < s) (hs' : s < 2 ^ 53) (hu : 52 ≤ u) :
    ∃ p, magnitude .binary64 p = s * 2 ^ ((u : ℤ) - 1074) := by
  have hlog : s.log2 < 53 := (Nat.log2_lt hs.ne').mpr hs'
  have hself : 2 ^ s.log2 ≤ s := Nat.log2_self_le hs.ne'
  have hnext : s < 2 ^ (s.log2 + 1) := Nat.lt_log2_self
  obtain ⟨j, hj⟩ : ∃ j, s.log2 + j = 52 := ⟨52 - s.log2, by omega⟩
  obtain ⟨v, hv⟩ : ∃ v, u = v + j := ⟨u - j, by omega⟩
  have hlow : 2 ^ 52 ≤ s * 2 ^ j := by
    rw [← hj, pow_add]
    exact Nat.mul_le_mul_right _ hself
  have hhigh : s * 2 ^ j < 2 ^ 52 + 2 ^ 52 := by
    have hfull : 2 ^ 52 + 2 ^ 52 = 2 ^ (s.log2 + 1) * 2 ^ j := by
      rw [← pow_add, show s.log2 + 1 + j = 53 by omega]
      norm_num
    rw [hfull]
    exact Nat.mul_lt_mul_of_pos_right hnext (Nat.two_pow_pos j)
  refine ⟨(v + 1) * 2 ^ 52 + (s * 2 ^ j - 2 ^ 52), ?_⟩
  have hfields := magnitude_mul_add (f := .binary64) (q := v + 1) (r := s * 2 ^ j - 2 ^ 52)
    (by change _ < 2 ^ 52; omega)
  have hmin : Float.Model.Format.binary64.minExponent = -1074 := rfl
  have hbits : Float.Model.Format.binary64.mantissaBitsWithoutImplicit = 52 := rfl
  rw [hbits] at hfields
  rw [hfields, fieldsValue, if_neg (by omega), hmin, hbits, Nat.add_sub_cancel, Nat.cast_sub hlow, hv]
  rw [Nat.cast_pow, Nat.cast_two, add_sub_cancel, Nat.cast_mul, Nat.cast_pow, Nat.cast_two, mul_assoc,
    ← zpow_natCast, ← zpow_add₀ two_ne_zero, Nat.cast_add]
  congr 2
  ring

/-- Below the normal range the midpoints are the odd multiples of half of the smallest single. -/
lemma midpoint_of_lt (h : n < 2 ^ 24) :
    (magnitude .binary32 n + magnitude .binary32 (n + 1)) / 2 = (2 * n + 1) * 2 ^ (-150 : ℤ) := by
  rw [magnitude_of_le (by omega), magnitude_of_le (by omega)]
  push_cast
  norm_num
  ring

/-- The midpoint of two neighbours is always a double. -/
lemma exists_midpoint (n : ℕ) : ∃ p, magnitude .binary64 p =
    (magnitude .binary32 n + magnitude .binary32 (n + 1)) / 2 := by
  rcases Nat.lt_or_ge n (2 ^ 23) with hlt | hge
  · obtain ⟨p, hp⟩ := exists_magnitude_eq (s := 2 * n + 1) (u := 924) (by omega) (by omega)
      (by norm_num)
    refine ⟨p, hp.trans ?_⟩
    rw [midpoint_of_lt (by omega)]
    norm_num
  · exact ⟨_, (midpoint_eq hge).symm⟩

/-- The bit of a sign in a double, and in a single. -/
def doubleSign (negative : Bool) : UInt64 := if negative then 0x8000000000000000 else 0

@[inherit_doc doubleSign]
def singleSign (negative : Bool) : UInt32 := if negative then signBit else 0

variable {negative : Bool}

lemma doubleSign_eq : doubleSign negative = (singleSign negative &&& signBit).toUInt64 <<< 32 := by
  cases negative <;> decide

lemma toNat_or_doubleSign (w : UInt64) (h : w.toNat < 2 ^ 63) :
    (w ||| doubleSign negative).toNat % 2 ^ 63 = w.toNat := by
  rw [doubleSign_eq, toNat_or_sign, Nat.mod_eq_of_lt h]

/-- The upper half of a signed double has the sign of the single. -/
lemma signBit_of_or_doubleSign (w : UInt64) (h : w.toNat < 2 ^ 63) :
    ((w ||| doubleSign negative) >>> 32).toUInt32 &&& signBit = singleSign negative := by
  have hbit : (w ||| doubleSign negative).toNat.testBit 63 = negative := by
    rw [UInt64.toNat_or, Nat.testBit_or, Nat.testBit_lt_two_pow h, Bool.false_or]
    cases negative <;> decide
  have h32 : (32 : UInt64).toNat % 64 = 32 := rfl
  rw [← UInt32.toNat_inj, toNat_and_signBit, UInt64.toNat_toUInt32, UInt64.toNat_shiftRight, h32,
    Nat.testBit_mod_two_pow, Nat.testBit_shiftRight, show 32 + 31 = 63 from rfl, hbit]
  cases negative <;> rfl

section Nearest

variable (hn : 0 < n) (hn' : n < 0x7F800000)
  (h₁ : (magnitude .binary32 (n - 1) + magnitude .binary32 n) / 2 ≤ magnitude .binary64 p)
  (h₂ : magnitude .binary64 p ≤ (magnitude .binary32 n + magnitude .binary32 (n + 1)) / 2)
  (htie : Even n ∨
    magnitude .binary64 p ≠ (magnitude .binary32 (n - 1) + magnitude .binary32 n) / 2 ∧
    magnitude .binary64 p ≠ (magnitude .binary32 n + magnitude .binary32 (n + 1)) / 2)

lemma midpoint_lt (n : ℕ) :
    (magnitude .binary32 n + magnitude .binary32 (n + 1)) / 2 < magnitude .binary32 (n + 1) := by
  linarith [magnitude_strictMono (f := .binary32) (Nat.lt_succ_self n)]

lemma lt_midpoint (n : ℕ) :
    magnitude .binary32 n < (magnitude .binary32 n + magnitude .binary32 (n + 1)) / 2 := by
  linarith [magnitude_strictMono (f := .binary32) (Nat.lt_succ_self n)]

/-- The smallest normal single, as a double. -/
lemma magnitude_normal :
    magnitude .binary64 (897 * 2 ^ 52) = magnitude .binary32 (2 ^ 23) := by
  rw [magnitude_single_eq le_rfl]
  norm_num

include hn h₁

/-- Half of the smallest single is not lost. -/
lemma le_of_midpoint_le : 872 * 2 ^ 52 ≤ p := by
  by_contra hlt
  have hsize := magnitude_strictMono (f := .binary64) (not_le.mp hlt)
  have hone := magnitude_strictMono (f := .binary32) |>.monotone hn
  have hlimit : magnitude .binary64 (872 * 2 ^ 52) = 2 ^ (-151 : ℤ) := by
    rw [magnitude_binary64]
    norm_num
  have hunit : magnitude .binary32 1 = 2 ^ (-149 : ℤ) := by
    rw [magnitude_of_le (by norm_num), Nat.cast_one, one_mul]
  rw [hlimit] at hsize
  rw [Nat.succ_eq_add_one, Nat.zero_add, hunit] at hone
  have hprev := magnitude_nonneg (f := .binary32) (n - 1)
  norm_num at hsize hone
  linarith

include h₂ htie

/-- Narrowing in the normal range. -/
lemma toNat_shiftEven_normal {w : UInt64} (hw : p = w.toNat + 896 * 2 ^ 52) (hp : w.toNat < 2 ^ 62)
    (hnormal : 2 ^ 52 ≤ w.toNat) : (shiftEven w 29).toNat = n := by
  have hmono := magnitude_strictMono (f := .binary32)
  have hmono' := magnitude_strictMono (f := .binary64)
  have h29 : (29 : UInt64).toNat = 28 + 1 := rfl
  have hcancel : ∀ {a b c : ℕ}, a + c ≤ b + c ↔ a ≤ b := Nat.add_le_add_iff_right
  have hle : 2 ^ 23 ≤ n := by
    by_contra hlt
    have hsize := hmono'.monotone (show 897 * 2 ^ 52 ≤ p by omega)
    have hnext := hmono.monotone (show n + 1 ≤ 2 ^ 23 by omega)
    rw [magnitude_normal] at hsize
    linarith [midpoint_lt n]
  rw [midpoint_eq hle] at h₂ htie
  rcases hle.eq_or_lt with rfl | hlt
  · rw [hmono'.le_iff_le, hw, hcancel] at h₂
    exact toNat_shiftEven_eq hp h29 (by norm_num) (by omega) (by omega) (.inl (by decide))
  · obtain ⟨k, rfl⟩ : ∃ k, n = k + 1 := ⟨n - 1, by omega⟩
    rw [Nat.add_sub_cancel, midpoint_eq (by omega)] at h₁ htie
    rw [hmono'.le_iff_le, hw, hcancel] at h₁ h₂
    rw [ne_eq, ne_eq, hmono'.injective.eq_iff, hmono'.injective.eq_iff, hw, Nat.add_right_cancel_iff,
      Nat.add_right_cancel_iff] at htie
    refine toNat_shiftEven_eq hp h29 (by norm_num) (by omega) (by omega) (htie.imp_right ?_)
    rintro ⟨hlow, hhigh⟩
    constructor <;> omega

/-- Narrowing below the normal range. -/
lemma toNat_shiftEven_subnormal (hsmall : p < 897 * 2 ^ 52) {w shift : UInt64}
    (hw : w.toNat = 2 ^ 52 + p % 2 ^ 52) (hshift : shift.toNat = 926 - p / 2 ^ 52) :
    (shiftEven w shift).toNat = n := by
  have hmono := magnitude_strictMono (f := .binary32)
  have hmono' := magnitude_strictMono (f := .binary64)
  have hfield := le_of_midpoint_le hn h₁
  obtain ⟨k, rfl⟩ : ∃ k, n = k + 1 := ⟨n - 1, by omega⟩
  rw [Nat.add_sub_cancel] at h₁ htie
  have hle : k < 2 ^ 23 := by
    by_contra hlt
    have hsize := hmono' hsmall
    have hprev := hmono.monotone (not_lt.mp hlt)
    rw [← magnitude_normal] at hprev
    linarith [lt_midpoint k]
  obtain ⟨i, hi⟩ : ∃ i, 926 - p / 2 ^ 52 = i + 1 := ⟨925 - p / 2 ^ 52, by omega⟩
  have hmagnitude : magnitude .binary64 p = w.toNat * (2 ^ (-150 : ℤ) / 2 ^ i) := by
    have hexp : (-1074 : ℤ) + ((p / 2 ^ 52 - 1 : ℕ) : ℤ) = -150 - (i : ℤ) := by omega
    rw [magnitude_binary64, if_neg (by omega), hexp, hw, zpow_sub₀ two_ne_zero, zpow_natCast]
    norm_num
  have hpos : (0 : ℝ) < 2 ^ (-150 : ℤ) / 2 ^ i := by positivity
  have hmidpoint : ∀ {j : ℕ}, j ≤ k + 1 →
      (magnitude .binary32 j + magnitude .binary32 (j + 1)) / 2 =
        (((2 * j + 1) * 2 ^ i : ℕ) : ℝ) * (2 ^ (-150 : ℤ) / 2 ^ i) := by
    intro j hj
    rw [midpoint_of_lt (by omega)]
    push_cast
    field_simp
  rw [hmagnitude, hmidpoint (by omega), mul_le_mul_iff_left₀ hpos, Nat.cast_le] at h₁ h₂
  rw [hmagnitude, hmidpoint (by omega), hmidpoint (by omega), ne_eq, ne_eq, mul_left_inj' hpos.ne',
    mul_left_inj' hpos.ne', Nat.cast_inj, Nat.cast_inj] at htie
  have hbelow : (2 * k + 1) * 2 ^ i + 2 ^ i = (k + 1) * 2 ^ (i + 1) := by ring
  have habove : (2 * (k + 1) + 1) * 2 ^ i = (k + 1) * 2 ^ (i + 1) + 2 ^ i := by ring
  refine toNat_shiftEven_eq (i := i) (by omega) (by omega) (by omega) (by omega) (by omega)
    (htie.imp_right ?_)
  rintro ⟨hne, hne'⟩
  constructor <;> omega

/-- The size between the midpoints around a single is narrowed to the one of the single. -/
lemma Narrows.toNat_eq {m : UInt64} (hm : Narrows p m) (hp : p < 0x7F800000 * 2 ^ 29 + 896 * 2 ^ 52) :
    m.toNat = n := by
  cases hm with
  | normal w hw hone => exact toNat_shiftEven_normal hn h₁ h₂ htie hw.symm (by omega) hone
  | subnormal w shift hlow hhigh hw hshift =>
    exact toNat_shiftEven_subnormal hn h₁ h₂ htie hhigh hw hshift
  | lost hlow => exact absurd hlow (not_lt.mpr (le_of_midpoint_le hn h₁))

/-- **Narrowing.**  A double between the midpoints on both sides of a single is narrowed to it; on a
midpoint the single has to have the even pattern. -/
theorem narrow_eq (negative : Bool) (hn' : n < 0x7F800000) :
    narrow (Float.ofBits (p.toUInt64 ||| doubleSign negative)) =
      Float32.ofBits (n.toUInt32 ||| singleSign negative) := by
  have hmono := magnitude_strictMono (f := .binary32)
  have hmono' := magnitude_strictMono (f := .binary64)
  have hp : p < 0x7F800000 * 2 ^ 29 + 896 * 2 ^ 52 := by
    have hnext := hmono.monotone (show n + 1 ≤ 0x7F800000 by omega)
    rw [← hmono'.lt_iff_lt, ← magnitude_single_eq (by norm_num)]
    linarith [midpoint_lt n]
  have hword : p.toUInt64.toNat = p := Nat.mod_eq_of_lt (by omega)
  have hbits : (Float.ofBits (p.toUInt64 ||| doubleSign negative)).toBits =
      p.toUInt64 ||| doubleSign negative :=
    toBits_ofBits_double (by rw [toNat_or_doubleSign _ (by omega), hword]; omega)
  have hsize : ((Float.ofBits (p.toUInt64 ||| doubleSign negative)).toBits &&&
      0x7FFFFFFFFFFFFFFF).toNat = p := by
    rw [hbits, toNat_and_double, toNat_or_doubleSign _ (by omega), hword]
  obtain ⟨m, hm, hnarrow⟩ := exists_narrows (Float.ofBits (p.toUInt64 ||| doubleSign negative))
    (by rw [hsize]; omega)
  rw [hsize] at hm
  have hresult := hm.toNat_eq hn h₁ h₂ htie hp
  have hsingle : m.toUInt32 = n.toUInt32 := by
    rw [← UInt32.toNat_inj, UInt64.toNat_toUInt32, hresult]
    rfl
  rw [hnarrow (hresult.trans_lt hn'), hbits, signBit_of_or_doubleSign _ (by omega), hsingle]

end Nearest

end Arbor.Number
