import Arbor.Proofs.Number.Unpacked

/-!
# Bit patterns

A number is kept as a bit pattern: a sign bit, and a size that counts the magnitudes of the format
in increasing order from zero.  Packing a canonical number and unpacking it again gives the number
back, unless it reaches the limit of the format and becomes infinite (`unpack_pack`,
`unpack_pack_of_limit_le`).  The real that a pattern stands for is a strictly increasing function
of its size (`magnitude_strictMono`, `abs_value_unpack`), so bounds on reals and bounds on patterns
are the same thing.
-/

namespace Arbor.Number

open Float.Model (UnpackedFloat)
open Float.Model.UnpackedFloat

variable {f : Float.Model.Format}

/-! ## Limits of a format -/

/-- All finite numbers of the format are below this one in size. -/
noncomputable def limit (f : Float.Model.Format) : ℝ := 2 ^ (2 ^ (f.exponentBits - 1) : ℕ)

/-- The exponent of the largest unit. -/
def largestExponent (f : Float.Model.Format) : ℤ := 2 ^ (f.exponentBits - 1) - f.mantissaBits

lemma limit_pos : 0 < limit f := by
  unfold limit
  positivity

lemma limit_eq : limit f = 2 ^ (largestExponent f + f.mantissaBits) := by
  unfold limit largestExponent
  rw [sub_add_cancel, ← zpow_natCast]
  push_cast
  rfl

lemma minExponent_eq : f.minExponent =
    1 - (f.exponentBias : ℤ) - f.mantissaBitsWithoutImplicit := by
  have h : 1 ≤ 2 ^ (f.exponentBits - 1) := Nat.one_le_two_pow
  unfold Float.Model.Format.minExponent Float.Model.Format.mantissaBits Float.Model.Format.exponentBias
  push_cast [h]
  ring

lemma largestExponent_eq : largestExponent f =
    (f.exponentBias : ℤ) - f.mantissaBitsWithoutImplicit := by
  have h : 1 ≤ 2 ^ (f.exponentBits - 1) := Nat.one_le_two_pow
  unfold largestExponent Float.Model.Format.mantissaBits Float.Model.Format.exponentBias
  push_cast [h]
  ring

lemma two_pow_exponentBits : 2 ^ f.exponentBits = 2 * f.exponentBias + 2 := by
  have h : 1 ≤ 2 ^ (f.exponentBits - 1) := Nat.one_le_two_pow
  have hsplit : f.exponentBits = f.exponentBits - 1 + 1 := by
    have := f.he
    omega
  unfold Float.Model.Format.exponentBias
  rw [hsplit, pow_succ, Nat.add_sub_cancel]
  omega

/-- A format of at least two exponent bits has numbers with a leading bit below its limit. -/
lemma exponentBias_pos (hf : 2 ≤ f.exponentBits) : 0 < f.exponentBias := by
  have h : 2 ^ 1 ≤ 2 ^ (f.exponentBits - 1) := Nat.pow_le_pow_right (by norm_num) (by omega)
  unfold Float.Model.Format.exponentBias
  omega

/-- The exponent of a canonical number tells whether it is below the limit. -/
lemma le_largestExponent_iff (hf : 2 ≤ f.exponentBits) {s : Sign} {m : ℕ} {e : ℤ} {hm : 0 < m}
    (h : Canonical f (.finite s m e hm)) :
    e ≤ largestExponent f ↔ (m : ℝ) * 2 ^ e < limit f := by
  obtain ⟨hlt, hmin, hfull⟩ := h
  rw [limit_eq]
  constructor
  · intro he
    have hm' : (m : ℝ) < 2 ^ f.mantissaBits := by exact_mod_cast hlt
    have hpow : (2 : ℝ) ^ e ≤ 2 ^ largestExponent f := zpow_le_zpow_right₀ (by norm_num) he
    calc (m : ℝ) * 2 ^ e < 2 ^ f.mantissaBits * 2 ^ e :=
          mul_lt_mul_of_pos_right hm' (by positivity)
      _ ≤ 2 ^ f.mantissaBits * 2 ^ largestExponent f :=
          mul_le_mul_of_nonneg_left hpow (by positivity)
      _ = 2 ^ (largestExponent f + f.mantissaBits) := by
          rw [zpow_add₀ (by norm_num), zpow_natCast, mul_comm]
  · intro hval
    by_contra hgt
    have hbias := exponentBias_pos hf
    have hfull' : 2 ^ (f.mantissaBits - 1) ≤ m := by
      rcases hfull with hfull | rfl
      · exact hfull
      · rw [minExponent_eq, largestExponent_eq] at hgt
        omega
    have hm' : (2 : ℝ) ^ ((f.mantissaBits - 1 : ℕ) : ℤ) ≤ m := by exact_mod_cast hfull'
    have hpow : (2 : ℝ) ^ (largestExponent f + 1) ≤ 2 ^ e :=
      zpow_le_zpow_right₀ (by norm_num) (by omega)
    have hsplit : (2 : ℝ) ^ (largestExponent f + f.mantissaBits) =
        2 ^ ((f.mantissaBits - 1 : ℕ) : ℤ) * 2 ^ (largestExponent f + 1) := by
      have hp := two_le_mantissaBits f
      rw [← zpow_add₀ (by norm_num)]
      congr 1
      omega
    have : (2 : ℝ) ^ (largestExponent f + f.mantissaBits) ≤ m * 2 ^ e := by
      rw [hsplit]
      gcongr
    linarith

lemma abs_value_finite (s : Sign) (m : ℕ) (e : ℤ) (hm : 0 < m) :
    |value (.finite s m e hm)| = m * 2 ^ e := by
  have hpos : (0 : ℝ) ≤ m * 2 ^ e := by positivity
  rw [value_finite]
  cases s <;> simp [Sign.apply, abs_mul]

/-! ## Sizes of patterns -/

/-- The pattern of infinity without its sign: all finite numbers have a smaller size. -/
def infinitySize (f : Float.Model.Format) : ℕ := (2 ^ f.exponentBits - 1) * 2 ^ f.mantissaBitsWithoutImplicit

/-- A pattern without its sign bit. -/
def size (b : BitVec f.numBits) : ℕ :=
  b.toNat % 2 ^ (f.mantissaBitsWithoutImplicit + f.exponentBits)

/-- The number of a sign, an exponent field and a fraction field. -/
def ofFields (f : Float.Model.Format) (s : Sign) (field fraction : ℕ) : UnpackedFloat :=
  if field + 1 = 2 ^ f.exponentBits then if fraction = 0 then .infinity s else .notANumber
  else if field = 0 then ofMantissa s fraction f.minExponent
  else ofMantissa s (2 ^ f.mantissaBitsWithoutImplicit + fraction) (f.minExponent + (field - 1))

/-- The number of a sign and a size. -/
def ofSize (f : Float.Model.Format) (s : Sign) (n : ℕ) : UnpackedFloat :=
  ofFields f s (n / 2 ^ f.mantissaBitsWithoutImplicit) (n % 2 ^ f.mantissaBitsWithoutImplicit)

lemma mul_add_div_of_lt {B q r : ℕ} (hr : r < B) : (q * B + r) / B = q := by
  rw [Nat.mul_comm, Nat.mul_add_div (Nat.zero_lt_of_lt hr), Nat.div_eq_of_lt hr, Nat.add_zero]

lemma mul_add_mod_of_lt {B q r : ℕ} (hr : r < B) : (q * B + r) % B = r := by
  rw [Nat.mul_comm, Nat.mul_add_mod, Nat.mod_eq_of_lt hr]

lemma ofSize_mul_add {s : Sign} {q r : ℕ} (hr : r < 2 ^ f.mantissaBitsWithoutImplicit) :
    ofSize f s (q * 2 ^ f.mantissaBitsWithoutImplicit + r) = ofFields f s q r := by
  rw [ofSize, mul_add_div_of_lt hr, mul_add_mod_of_lt hr]

lemma toNat_unpackMantissa (b : BitVec f.numBits) :
    (unpackMantissa b).toNat = size b % 2 ^ f.mantissaBitsWithoutImplicit := by
  have hm := f.hm
  have hwidth : f.mantissaBitsWithoutImplicit - 1 - 0 + 1 = f.mantissaBitsWithoutImplicit := by
    omega
  unfold unpackMantissa size
  rw [BitVec.toNat_cast, BitVec.extractLsb, BitVec.extractLsb'_toNat, Nat.shiftRight_zero, hwidth,
    Nat.pow_add, Nat.mod_mul_right_mod]

lemma toNat_unpackExponent (b : BitVec f.numBits) :
    (unpackExponent b).toNat = size b / 2 ^ f.mantissaBitsWithoutImplicit := by
  have he := f.he
  have hwidth : f.mantissaBitsWithoutImplicit + f.exponentBits - 1 - f.mantissaBitsWithoutImplicit
      + 1 = f.exponentBits := by
    omega
  unfold unpackExponent size
  rw [BitVec.toNat_cast, BitVec.extractLsb, BitVec.extractLsb'_toNat, hwidth,
    Nat.shiftRight_eq_div_pow, Nat.pow_add, Nat.mod_mul_right_div_self]

lemma bitVec_eq_neg_one_iff {n : ℕ} (b : BitVec n) : b = -1#n ↔ b.toNat + 1 = 2 ^ n := by
  have hpos := Nat.two_pow_pos n
  rw [← BitVec.toNat_inj, BitVec.neg_one_eq_allOnes, BitVec.toNat_allOnes]
  omega

lemma bitVec_eq_zero_iff {n : ℕ} (b : BitVec n) : b = 0#n ↔ b.toNat = 0 := by
  rw [← BitVec.toNat_inj]
  simp

lemma toNat_leading_append (b : BitVec f.numBits) : ((1#1) ++ unpackMantissa b).toNat =
    2 ^ f.mantissaBitsWithoutImplicit + size b % 2 ^ f.mantissaBitsWithoutImplicit := by
  rw [BitVec.toNat_append, ← Nat.shiftLeft_add_eq_or_of_lt (BitVec.isLt _), toNat_unpackMantissa,
    Nat.shiftLeft_eq]
  exact congrArg (· + _) (Nat.one_mul _)

/-- Unpacking depends on the sign and the size of a pattern. -/
theorem unpack_eq_ofSize (b : BitVec f.numBits) :
    unpack f b = ofSize f (Sign.ofBitVec (unpackSign b)) (size b) := by
  have hones := bitVec_eq_neg_one_iff (unpackExponent b)
  have hfield := bitVec_eq_zero_iff (unpackExponent b)
  have hfraction := bitVec_eq_zero_iff (unpackMantissa b)
  rw [toNat_unpackExponent] at hones hfield
  rw [toNat_unpackMantissa] at hfraction
  unfold unpack ofSize ofFields
  dsimp only
  by_cases hinf : size b / 2 ^ f.mantissaBitsWithoutImplicit + 1 = 2 ^ f.exponentBits
  · rw [if_pos (hones.mpr hinf), if_pos hinf]
    by_cases hnan : size b % 2 ^ f.mantissaBitsWithoutImplicit = 0
    · rw [if_pos (hfraction.mpr hnan), if_pos hnan]
    · rw [if_neg (mt hfraction.mp hnan), if_neg hnan]
  rw [if_neg (mt hones.mp hinf), if_neg hinf]
  by_cases hlow : size b / 2 ^ f.mantissaBitsWithoutImplicit = 0
  · rw [if_pos (hfield.mpr hlow), if_pos hlow]
    by_cases hzero : size b % 2 ^ f.mantissaBitsWithoutImplicit = 0
    · rw [dif_pos (hfraction.mpr hzero), hzero, ofMantissa_zero]
    · rw [dif_neg (mt hfraction.mp hzero), ← ofMantissa_of_pos, toNat_unpackMantissa,
        toNat_unpackExponent, hlow, minExponent_eq]
      congr 1
      push_cast
      ring
  · rw [if_neg (mt hfield.mp hlow), if_neg hlow, ← ofMantissa_of_pos, toNat_leading_append,
      toNat_unpackExponent, minExponent_eq]
    congr 1
    push_cast
    ring

/-! ## Packing -/

lemma toNat_unpackSign (b : BitVec f.numBits) :
    (unpackSign b).toNat = b.toNat / 2 ^ (f.mantissaBitsWithoutImplicit + f.exponentBits) := by
  have hlt : b.toNat / 2 ^ (f.mantissaBitsWithoutImplicit + f.exponentBits) < 2 := by
    rw [Nat.div_lt_iff_lt_mul (Nat.two_pow_pos _), ← Nat.pow_succ']
    refine b.isLt.trans_eq ?_
    congr 1
    unfold Float.Model.Format.numBits
    omega
  unfold unpackSign
  rw [BitVec.toNat_cast, BitVec.extractLsb, BitVec.extractLsb'_toNat, Nat.shiftRight_eq_div_pow,
    Nat.sub_self, Nat.zero_add, pow_one, Nat.mod_eq_of_lt hlt]

lemma fields_lt (e : BitVec f.exponentBits) (m : BitVec f.mantissaBitsWithoutImplicit) :
    e.toNat * 2 ^ f.mantissaBitsWithoutImplicit + m.toNat <
      2 ^ (f.mantissaBitsWithoutImplicit + f.exponentBits) := by
  have hm := m.isLt
  have he := e.isLt
  rw [Nat.pow_add]
  nlinarith

lemma toNat_packComponents (s : Sign) (e : BitVec f.exponentBits)
    (m : BitVec f.mantissaBitsWithoutImplicit) :
    (packComponents f s e m).toNat =
      s.toBitVec.toNat * 2 ^ (f.mantissaBitsWithoutImplicit + f.exponentBits) +
        (e.toNat * 2 ^ f.mantissaBitsWithoutImplicit + m.toNat) := by
  unfold packComponents
  rw [BitVec.toNat_append, ← Nat.shiftLeft_add_eq_or_of_lt m.isLt, BitVec.toNat_append,
    ← Nat.shiftLeft_add_eq_or_of_lt e.isLt, Nat.shiftLeft_eq, Nat.shiftLeft_eq, Nat.add_mul,
    Nat.mul_assoc, ← Nat.pow_add, Nat.add_comm f.exponentBits, Nat.add_assoc]

lemma unpackSign_packComponents (s : Sign) (e : BitVec f.exponentBits)
    (m : BitVec f.mantissaBitsWithoutImplicit) :
    unpackSign (packComponents f s e m) = s.toBitVec := by
  rw [← BitVec.toNat_inj, toNat_unpackSign, toNat_packComponents, mul_add_div_of_lt (fields_lt e m)]

lemma ofBitVec_toBitVec (s : Sign) : Sign.ofBitVec s.toBitVec = s := by
  cases s <;> rfl

lemma size_packComponents (s : Sign) (e : BitVec f.exponentBits)
    (m : BitVec f.mantissaBitsWithoutImplicit) :
    size (packComponents f s e m) = e.toNat * 2 ^ f.mantissaBitsWithoutImplicit + m.toNat := by
  rw [size, toNat_packComponents, mul_add_mod_of_lt (fields_lt e m)]

section Canonical

variable {s : Sign} {m : ℕ} {e : ℤ} {hm : 0 < m}

lemma mantissaBits_sub_one : f.mantissaBits - 1 = f.mantissaBitsWithoutImplicit := by
  unfold Float.Model.Format.mantissaBits
  omega

lemma two_pow_mantissaBits : 2 ^ f.mantissaBits = 2 * 2 ^ f.mantissaBitsWithoutImplicit := by
  unfold Float.Model.Format.mantissaBits
  rw [Nat.pow_add, pow_one]

/-- The number of the units between the smallest one and that of a canonical number. -/
lemma exists_steps (h : Canonical f (.finite s m e hm)) (he : e ≤ largestExponent f) :
    ∃ k : ℕ, e = f.minExponent + k ∧ k + 2 < 2 ^ f.exponentBits ∧
      (2 ^ f.mantissaBitsWithoutImplicit ≤ m ∨ k = 0) := by
  obtain ⟨-, hmin, hfull⟩ := h
  refine ⟨(e - f.minExponent).toNat, by omega, ?_, ?_⟩
  · rw [two_pow_exponentBits]
    rw [largestExponent_eq] at he
    rw [minExponent_eq] at hmin ⊢
    omega
  · rw [mantissaBits_sub_one] at hfull
    exact hfull.imp_right (by omega)

/-- The fields of a number with a leading bit, and of one without. -/
lemma ofFields_finite {k : ℕ} (hm : 0 < m) (hek : e = f.minExponent + k)
    (hk : k + 2 < 2 ^ f.exponentBits) :
    (2 ^ f.mantissaBitsWithoutImplicit ≤ m →
        ofFields f s (k + 1) (m - 2 ^ f.mantissaBitsWithoutImplicit) = .finite s m e hm) ∧
      (k = 0 → ofFields f s 0 m = .finite s m e hm) := by
  rw [← ofMantissa_of_pos]
  constructor
  · intro hleading
    unfold ofFields
    rw [if_neg (by omega), if_neg (by omega)]
    rw [hek]
    congr 1
    · omega
    · push_cast
      ring
  · rintro rfl
    unfold ofFields
    rw [if_neg (by omega), if_pos rfl, hek, Nat.cast_zero, add_zero]

lemma log2_add_one_eq_iff (h : Canonical f (.finite s m e hm)) :
    m.log2 + 1 = f.mantissaBits ↔ 2 ^ f.mantissaBitsWithoutImplicit ≤ m := by
  have hlt : m.log2 < f.mantissaBits := (Nat.log2_lt hm.ne').mpr h.1
  rw [← Nat.le_log2 hm.ne']
  unfold Float.Model.Format.mantissaBits at hlt ⊢
  omega

lemma unpack_packComponents (field : BitVec f.exponentBits)
    (fraction : BitVec f.mantissaBitsWithoutImplicit) :
    unpack f (packComponents f s field fraction) = ofFields f s field.toNat fraction.toNat := by
  rw [unpack_eq_ofSize, unpackSign_packComponents, ofBitVec_toBitVec, size_packComponents,
    ofSize_mul_add fraction.isLt]

lemma pack_finite : pack f (.finite s m e hm) =
    if 2 ^ f.exponentBits ≤ (e + f.exponentBias + f.mantissaBitsWithoutImplicit).toNat + 1 then
      packedInfinity f s
    else if m.log2 + 1 = f.mantissaBits then
      packComponents f s (.ofNat _ (e + f.exponentBias + f.mantissaBitsWithoutImplicit).toNat)
        (.ofNat _ m)
    else packComponents f s 0#_ (.ofNat _ m) := rfl

lemma unpack_pack_finite (h : Canonical f (.finite s m e hm)) (he : e ≤ largestExponent f) :
    unpack f (pack f (.finite s m e hm)) = .finite s m e hm := by
  obtain ⟨k, hek, hk, hfull⟩ := exists_steps h he
  obtain ⟨hnormal, hsubnormal⟩ := ofFields_finite (s := s) hm hek hk
  have hlt := h.1
  rw [two_pow_mantissaBits] at hlt
  have hbiased : (e + f.exponentBias + f.mantissaBitsWithoutImplicit).toNat = k + 1 := by
    rw [minExponent_eq] at hek
    omega
  rw [pack_finite, hbiased, if_neg (by omega)]
  by_cases hlog : m.log2 + 1 = f.mantissaBits
  · have hleading := (log2_add_one_eq_iff h).mp hlog
    rw [if_pos hlog, unpack_packComponents, BitVec.toNat_ofNat, BitVec.toNat_ofNat,
      Nat.mod_eq_of_lt (by omega), Nat.mod_eq_sub_mod hleading, Nat.mod_eq_of_lt (by omega)]
    exact hnormal hleading
  · have hleading : ¬ 2 ^ f.mantissaBitsWithoutImplicit ≤ m := by
      rwa [← log2_add_one_eq_iff h]
    rw [if_neg hlog, unpack_packComponents, BitVec.toNat_ofNat, BitVec.toNat_ofNat, Nat.zero_mod,
      Nat.mod_eq_of_lt (by omega)]
    exact hsubnormal (hfull.resolve_left hleading)

lemma unpack_packedInfinity : unpack f (packedInfinity f s) = .infinity s := by
  have hpos := Nat.two_pow_pos f.exponentBits
  rw [packedInfinity, unpack_packComponents, BitVec.neg_one_eq_allOnes, BitVec.toNat_allOnes]
  unfold ofFields
  rw [if_pos (by omega), if_pos (by simp)]

lemma unpack_packedZero : unpack f (packedZero f s) = .zero s := by
  have hbits := two_pow_exponentBits (f := f)
  rw [packedZero, unpack_packComponents]
  unfold ofFields
  rw [if_neg (by simp; omega), if_pos (by simp)]
  exact ofMantissa_zero s _

lemma unpack_pack_infinite (he : largestExponent f < e) :
    unpack f (pack f (.finite s m e hm)) = .infinity s := by
  have hbits := two_pow_exponentBits (f := f)
  rw [largestExponent_eq] at he
  rw [pack_finite, if_pos (by omega)]
  exact unpack_packedInfinity

end Canonical

/-- Packing keeps a canonical number below the limit. -/
theorem unpack_pack (hf : 2 ≤ f.exponentBits) {u : UnpackedFloat} (hu : Canonical f u)
    (hu' : u.isFinite = true) (h : |value u| < limit f) : unpack f (pack f u) = u := by
  match u with
  | .zero s => exact unpack_packedZero
  | .finite s m e hm =>
    rw [abs_value_finite] at h
    exact unpack_pack_finite hu ((le_largestExponent_iff hf hu).mpr h)
  | .infinity _ | .notANumber => cases hu'

/-- Packing makes a canonical number that reaches the limit infinite, with the same sign. -/
theorem unpack_pack_of_limit_le (hf : 2 ≤ f.exponentBits) {u : UnpackedFloat}
    (hu : Canonical f u) (h : limit f ≤ |value u|) :
    ∃ s, unpack f (pack f u) = .infinity s ∧ (0 ≤ value u → s = .positive) := by
  match u with
  | .finite s m e hm =>
    have hlarge : largestExponent f < e := by
      by_contra hle
      have := (le_largestExponent_iff hf hu).mp (by omega)
      rw [abs_value_finite] at h
      linarith
    refine ⟨s, unpack_pack_infinite hlarge, fun hnonneg => ?_⟩
    cases s with
    | positive => rfl
    | negative =>
      have hm' : (0 : ℝ) < m := by exact_mod_cast hm
      have hpos : (0 : ℝ) < m * 2 ^ e := by positivity
      rw [value_finite] at hnonneg
      simp only [Sign.apply, Int.cast_neg, Int.cast_one, neg_one_mul] at hnonneg
      linarith
  | .zero _ | .infinity _ | .notANumber =>
    have hpos := limit_pos (f := f)
    have hzero : limit f ≤ 0 := h.trans_eq abs_zero
    linarith

/-! ## Magnitudes -/

/-- The real that an exponent field and a fraction field stand for. -/
noncomputable def fieldsValue (f : Float.Model.Format) (field fraction : ℕ) : ℝ :=
  if field = 0 then fraction * 2 ^ f.minExponent
  else (2 ^ f.mantissaBitsWithoutImplicit + fraction) * 2 ^ (f.minExponent + (field - 1 : ℕ))

/-- The real that a size stands for. -/
noncomputable def magnitude (f : Float.Model.Format) (n : ℕ) : ℝ :=
  fieldsValue f (n / 2 ^ f.mantissaBitsWithoutImplicit) (n % 2 ^ f.mantissaBitsWithoutImplicit)

lemma magnitude_binary32 (n : ℕ) : magnitude .binary32 n =
    if n / 2 ^ 23 = 0 then ((n % 2 ^ 23 : ℕ) : ℝ) * 2 ^ (-149 : ℤ)
    else (2 ^ 23 + ((n % 2 ^ 23 : ℕ) : ℝ)) * 2 ^ (-149 + ((n / 2 ^ 23 - 1 : ℕ) : ℤ)) := rfl

lemma magnitude_binary64 (n : ℕ) : magnitude .binary64 n =
    if n / 2 ^ 52 = 0 then ((n % 2 ^ 52 : ℕ) : ℝ) * 2 ^ (-1074 : ℤ)
    else (2 ^ 52 + ((n % 2 ^ 52 : ℕ) : ℝ)) * 2 ^ (-1074 + ((n / 2 ^ 52 - 1 : ℕ) : ℤ)) := rfl

lemma magnitude_mul_add {q r : ℕ} (hr : r < 2 ^ f.mantissaBitsWithoutImplicit) :
    magnitude f (q * 2 ^ f.mantissaBitsWithoutImplicit + r) = fieldsValue f q r := by
  rw [magnitude, mul_add_div_of_lt hr, mul_add_mod_of_lt hr]

lemma fieldsValue_lt_succ (q r : ℕ) : fieldsValue f q r < fieldsValue f q (r + 1) := by
  unfold fieldsValue
  split_ifs
  · push_cast
    gcongr
    linarith
  · push_cast
    gcongr
    linarith

/-- A full fraction carries into the next unit. -/
lemma fieldsValue_succ_zero (q : ℕ) :
    fieldsValue f (q + 1) 0 = fieldsValue f q (2 ^ f.mantissaBitsWithoutImplicit) := by
  unfold fieldsValue
  rw [if_neg (by omega), Nat.add_sub_cancel]
  split_ifs with h
  · rw [h]
    simp
  · obtain ⟨p, rfl⟩ : ∃ p, q = p + 1 := ⟨q - 1, by omega⟩
    rw [Nat.add_sub_cancel]
    push_cast
    rw [← add_assoc, zpow_add_one₀ (by norm_num)]
    ring

/-- One size on, the fraction is larger by one. -/
lemma magnitude_succ (n : ℕ) : magnitude f (n + 1) =
    fieldsValue f (n / 2 ^ f.mantissaBitsWithoutImplicit)
      (n % 2 ^ f.mantissaBitsWithoutImplicit + 1) := by
  have hdiv := Nat.div_add_mod' n (2 ^ f.mantissaBitsWithoutImplicit)
  have hmod := Nat.mod_lt n (Nat.two_pow_pos f.mantissaBitsWithoutImplicit)
  set q := n / 2 ^ f.mantissaBitsWithoutImplicit
  set r := n % 2 ^ f.mantissaBitsWithoutImplicit
  by_cases hcarry : r + 1 < 2 ^ f.mantissaBitsWithoutImplicit
  · rw [← hdiv, Nat.add_assoc, magnitude_mul_add hcarry]
  · have hfull : r + 1 = 2 ^ f.mantissaBitsWithoutImplicit := by omega
    have hnext : n + 1 = (q + 1) * 2 ^ f.mantissaBitsWithoutImplicit + 0 := by
      rw [Nat.add_mul]
      omega
    rw [hnext, magnitude_mul_add (Nat.two_pow_pos _), fieldsValue_succ_zero, hfull]

/-- The next size stands for a larger real. -/
theorem magnitude_strictMono : StrictMono (magnitude f) := by
  apply strictMono_nat_of_lt_succ
  intro n
  rw [magnitude_succ]
  exact fieldsValue_lt_succ _ _

lemma magnitude_zero : magnitude f 0 = 0 := by
  simp [magnitude, fieldsValue]

lemma magnitude_nonneg (n : ℕ) : 0 ≤ magnitude f n := by
  rw [← magnitude_zero (f := f)]
  exact magnitude_strictMono.monotone (Nat.zero_le n)

lemma size_lt (b : BitVec f.numBits) :
    size b < 2 ^ (f.mantissaBitsWithoutImplicit + f.exponentBits) :=
  Nat.mod_lt _ (Nat.two_pow_pos _)

lemma field_add_one_eq_iff {n : ℕ}
    (hn : n < 2 ^ (f.mantissaBitsWithoutImplicit + f.exponentBits)) :
    n / 2 ^ f.mantissaBitsWithoutImplicit + 1 = 2 ^ f.exponentBits ↔ infinitySize f ≤ n := by
  have hB := Nat.two_pow_pos f.mantissaBitsWithoutImplicit
  have hfield : n / 2 ^ f.mantissaBitsWithoutImplicit < 2 ^ f.exponentBits := by
    rw [Nat.div_lt_iff_lt_mul hB, Nat.mul_comm, ← Nat.pow_add]
    exact hn
  rw [infinitySize, ← Nat.le_div_iff_mul_le hB]
  generalize n / 2 ^ f.mantissaBitsWithoutImplicit = field at hfield ⊢
  omega

/-- The finite patterns are those below infinity. -/
theorem isFinite_unpack_iff (b : BitVec f.numBits) :
    (unpack f b).isFinite = true ↔ size b < infinitySize f := by
  rw [unpack_eq_ofSize, ofSize, ← not_le, ← field_add_one_eq_iff (size_lt b)]
  unfold ofFields
  split_ifs with hinf hnan hfield
  · exact iff_of_false Bool.false_ne_true (not_not.mpr hinf)
  · exact iff_of_false Bool.false_ne_true (not_not.mpr hinf)
  · exact iff_of_true (isFinite_ofMantissa _ _ _) hinf
  · exact iff_of_true (isFinite_ofMantissa _ _ _) hinf

/-- What a finite pattern stands for. -/
theorem value_unpack (b : BitVec f.numBits) (h : size b < infinitySize f) :
    value (unpack f b) = ((Sign.ofBitVec (unpackSign b)).apply 1 : ℤ) * magnitude f (size b) := by
  rw [unpack_eq_ofSize, ofSize, magnitude]
  rw [← not_le, ← field_add_one_eq_iff (size_lt b)] at h
  unfold ofFields fieldsValue
  rw [if_neg h]
  split_ifs with hfield
  · rw [value_ofMantissa]
  · rw [value_ofMantissa, Nat.cast_pred (Nat.pos_of_ne_zero hfield)]
    push_cast
    rfl

/-- Below the sign bit a pattern is its own size. -/
lemma value_unpack_of_lt (b : BitVec f.numBits)
    (hs : b.toNat < 2 ^ (f.mantissaBitsWithoutImplicit + f.exponentBits))
    (h : size b < infinitySize f) : value (unpack f b) = magnitude f b.toNat := by
  have hsign : Sign.ofBitVec (unpackSign b) = .positive := by
    unfold Sign.ofBitVec
    rw [if_pos]
    rw [bitVec_eq_zero_iff, toNat_unpackSign, Nat.div_eq_of_lt hs]
  rw [value_unpack b h, hsign, size, Nat.mod_eq_of_lt hs]
  simp [Sign.apply]

/-- From the sign bit on a pattern is that of a number below zero. -/
lemma value_unpack_of_le (b : BitVec f.numBits)
    (hs : 2 ^ (f.mantissaBitsWithoutImplicit + f.exponentBits) ≤ b.toNat)
    (h : size b < infinitySize f) : value (unpack f b) = -magnitude f (size b) := by
  have hsign : Sign.ofBitVec (unpackSign b) = .negative := by
    unfold Sign.ofBitVec
    rw [if_neg]
    rw [bitVec_eq_zero_iff, toNat_unpackSign]
    exact (Nat.div_pos hs (Nat.two_pow_pos _)).ne'
  rw [value_unpack b h, hsign]
  simp [Sign.apply]

lemma canonical_unpack (b : BitVec f.numBits) : Canonical f (unpack f b) := by
  have hfraction : size b % 2 ^ f.mantissaBitsWithoutImplicit <
      2 ^ f.mantissaBitsWithoutImplicit := Nat.mod_lt _ (Nat.two_pow_pos _)
  rw [unpack_eq_ofSize, ofSize]
  unfold ofFields
  split_ifs with hinf hnan hfield
  · trivial
  · trivial
  · refine canonical_ofMantissa ⟨?_, le_rfl, .inr rfl⟩
    rw [two_pow_mantissaBits]
    omega
  · refine canonical_ofMantissa ⟨?_, ?_, .inl ?_⟩
    · rw [two_pow_mantissaBits]
      omega
    · rw [← Nat.cast_pred (Nat.pos_of_ne_zero hfield)]
      omega
    · rw [mantissaBits_sub_one]
      omega

lemma magnitude_infinitySize (hf : 2 ≤ f.exponentBits) :
    magnitude f (infinitySize f) = limit f := by
  have hbias := exponentBias_pos hf
  have hbits := two_pow_exponentBits (f := f)
  have hsize : infinitySize f = (2 ^ f.exponentBits - 1) * 2 ^ f.mantissaBitsWithoutImplicit + 0 :=
    rfl
  rw [hsize, magnitude_mul_add (Nat.two_pow_pos _), fieldsValue, if_neg (by omega), limit_eq,
    Nat.cast_zero, add_zero, ← zpow_natCast, ← zpow_add₀ (by norm_num)]
  congr 1
  rw [largestExponent_eq, minExponent_eq]
  unfold Float.Model.Format.mantissaBits
  omega

lemma abs_value_unpack (b : BitVec f.numBits) (h : size b < infinitySize f) :
    |value (unpack f b)| = magnitude f (size b) := by
  have hnonneg := magnitude_nonneg (f := f) (size b)
  rw [value_unpack b h, abs_mul, abs_of_nonneg hnonneg]
  cases Sign.ofBitVec (unpackSign b) <;> simp [Sign.apply]

/-- Every finite pattern is below the limit. -/
lemma abs_value_unpack_lt (hf : 2 ≤ f.exponentBits) (b : BitVec f.numBits)
    (h : (unpack f b).isFinite = true) : |value (unpack f b)| < limit f := by
  rw [isFinite_unpack_iff] at h
  rw [abs_value_unpack b h, ← magnitude_infinitySize hf]
  exact magnitude_strictMono h

/-- A number that is not a NaN has a sign, also if it is zero. -/
lemma sign_eq_of_ofMantissa_eq {s t : Sign} {m n : ℕ} {e k : ℤ}
    (h : ofMantissa s m e = ofMantissa t n k) : s = t := by
  rcases Nat.eq_zero_or_pos m with rfl | hm <;> rcases Nat.eq_zero_or_pos n with rfl | hn
  · cases h
    rfl
  · rw [ofMantissa_zero, ofMantissa_of_pos hn] at h
    cases h
  · rw [ofMantissa_zero, ofMantissa_of_pos hm] at h
    cases h
  · rw [ofMantissa_of_pos hm, ofMantissa_of_pos hn] at h
    cases h
    rfl

/-- Finite patterns that stand for the same number are equal. -/
theorem eq_of_unpack_eq {b c : BitVec f.numBits} (hb : size b < infinitySize f)
    (h : unpack f b = unpack f c) : b = c := by
  have hc : size c < infinitySize f := by
    rw [← isFinite_unpack_iff] at hb ⊢
    rwa [← h]
  have hsize : size b = size c := by
    apply (magnitude_strictMono (f := f)).injective
    rw [← abs_value_unpack b hb, ← abs_value_unpack c hc, h]
  have hsign : Sign.ofBitVec (unpackSign b) = Sign.ofBitVec (unpackSign c) := by
    rw [← not_le, ← field_add_one_eq_iff (size_lt c)] at hc
    rw [unpack_eq_ofSize, unpack_eq_ofSize, hsize, ofSize, ofSize, ofFields, ofFields, if_neg hc,
      if_neg hc] at h
    split_ifs at h <;> exact sign_eq_of_ofMantissa_eq h
  have hbit : (unpackSign b).toNat = (unpackSign c).toNat := by
    have hlt := (unpackSign b).isLt
    have hlt' := (unpackSign c).isLt
    unfold Sign.ofBitVec at hsign
    simp only [bitVec_eq_zero_iff] at hsign
    split_ifs at hsign with h₁ h₂ h₂ <;> omega
  rw [toNat_unpackSign, toNat_unpackSign] at hbit
  rw [← BitVec.toNat_inj, ← Nat.div_add_mod b.toNat, hbit, show b.toNat % _ = size b from rfl, hsize]
  exact Nat.div_add_mod _ _

/-- Unpacking loses nothing of a finite pattern. -/
theorem pack_unpack (hf : 2 ≤ f.exponentBits) {b : BitVec f.numBits} (h : size b < infinitySize f) :
    pack f (unpack f b) = b := by
  have hfinite := (isFinite_unpack_iff b).mpr h
  exact (eq_of_unpack_eq h (unpack_pack hf (canonical_unpack b) hfinite
    (abs_value_unpack_lt hf b hfinite)).symm).symm

end Arbor.Number
