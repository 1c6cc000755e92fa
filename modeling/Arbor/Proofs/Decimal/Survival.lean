import Arbor.Document.Value
import Arbor.Proofs.Decimal.Spelling

/-!
# Which numbers survive a document

A document holds a single as its shortest decimal, which is read as a double and then narrowed.
Both roundings are to the nearest, but two in a row may miss: if the double is the midpoint of two
neighbouring singles, the second rounding no longer knows on which side the decimal was.  So a
single is lost exactly where its decimal is read as such a midpoint, and its own pattern is odd
(`Torn`, `narrow_document`).
-/

namespace Arbor.Decimal

open Number Document

variable {x : Float32} {n : ℕ}

/-! ## Cells between midpoints -/

lemma magnitude_single (n : ℕ) : Format.single.magnitude n =
    if n / 2 ^ 23 = 0 then (n % 2 ^ 23, -149) else
      (n % 2 ^ 23 + 2 ^ 23, -149 + ((n / 2 ^ 23 : ℕ) : ℤ) - 1) :=
  rfl

/-- A pattern as a significand and the exponent of its unit. -/
lemma significand_spec (hn : 0 < n) (hn' : n < 0x7F800000) :
    0 < (Format.single.magnitude n).1 ∧ (Format.single.magnitude n).1 < 2 ^ 24 ∧
      -149 ≤ (Format.single.magnitude n).2 ∧ (Format.single.magnitude n).2 ≤ 104 := by
  rw [magnitude_single]
  split_ifs <;> dsimp only <;> omega

lemma magnitude_eq (n : ℕ) : magnitude .binary32 n =
    (Format.single.magnitude n).1 * 2 ^ (Format.single.magnitude n).2 := by
  rw [magnitude_single, magnitude_binary32]
  split_ifs with hfield
  · rfl
  · have hexponent : (-149 : ℤ) + ((n / 2 ^ 23 - 1 : ℕ) : ℤ) =
        -149 + ((n / 2 ^ 23 : ℕ) : ℤ) - 1 := by
      omega
    rw [hexponent, Nat.cast_add, Nat.cast_pow, Nat.cast_two, add_comm]

/-- The magnitude after one has a unit more. -/
lemma magnitude_next (n : ℕ) : magnitude .binary32 (n + 1) =
    ((Format.single.magnitude n).1 + 1) * 2 ^ (Format.single.magnitude n).2 := by
  have hsucc : magnitude .binary32 (n + 1) = fieldsValue .binary32 (n / 2 ^ 23) (n % 2 ^ 23 + 1) :=
    magnitude_succ n
  have hmin : Float.Model.Format.binary32.minExponent = -149 := rfl
  have hbits : Float.Model.Format.binary32.mantissaBitsWithoutImplicit = 23 := rfl
  rw [hsucc, fieldsValue, hmin, hbits, magnitude_single]
  split_ifs with hfield
  · rw [Nat.cast_succ]
  · have hexponent : (-149 : ℤ) + ((n / 2 ^ 23 - 1 : ℕ) : ℤ) =
        -149 + ((n / 2 ^ 23 : ℕ) : ℤ) - 1 := by
      omega
    rw [hexponent, Nat.cast_succ, Nat.cast_add, Nat.cast_pow, Nat.cast_two]
    ring

/-- The magnitude before one has a unit less, or half a unit at a power of two. -/
lemma magnitude_previous (hn : 0 < n) : magnitude .binary32 (n - 1) = magnitude .binary32 n -
    if (Format.single.magnitude n).1 = 2 ^ 23 ∧ (Format.single.magnitude n).2 ≠ -149
    then 2 ^ ((Format.single.magnitude n).2 - 1) else 2 ^ (Format.single.magnitude n).2 := by
  obtain ⟨k, rfl⟩ : ∃ k, n = k + 1 := ⟨n - 1, by omega⟩
  have hk := magnitude_next k
  rw [add_mul, one_mul, ← magnitude_eq] at hk
  have hunit : (Format.single.magnitude k).2 =
      if (Format.single.magnitude (k + 1)).1 = 2 ^ 23 ∧ (Format.single.magnitude (k + 1)).2 ≠ -149
      then (Format.single.magnitude (k + 1)).2 - 1 else (Format.single.magnitude (k + 1)).2 := by
    rw [magnitude_single, magnitude_single]
    split_ifs <;> dsimp only at * <;> omega
  rw [Nat.add_sub_cancel, hk, hunit]
  split_ifs <;> ring

/-- The cell of a pattern. -/
def cellOf (n : ℕ) : Cell :=
  .ofMagnitude .single (Format.single.magnitude n).1 (Format.single.magnitude n).2

/-- The cell of a pattern starts at the midpoint before it. -/
lemma low_cellOf (hn : 0 < n) (hn' : n < 0x7F800000) :
    ((cellOf n).low : ℝ) * 2 ^ (cellOf n).exponent =
      (magnitude .binary32 (n - 1) + magnitude .binary32 n) / 2 := by
  obtain ⟨hm, -, -, -⟩ := significand_spec hn hn'
  rw [magnitude_previous hn, magnitude_eq, cellOf]
  generalize (Format.single.magnitude n).1 = m at *
  generalize (Format.single.magnitude n).2 = q
  show ((4 * m - (if m = 2 ^ 23 ∧ q ≠ -149 then 1 else 2) : ℕ) : ℝ) * 2 ^ (q - 2) = _
  rw [zpow_sub₀ two_ne_zero, Nat.cast_sub (by split_ifs <;> omega)]
  split_ifs
  · rw [zpow_sub₀ two_ne_zero]
    push_cast
    norm_num
    ring
  · push_cast
    norm_num
    ring

/-- The cell of a pattern ends at the midpoint behind it. -/
lemma high_cellOf (n : ℕ) : ((cellOf n).high : ℝ) * 2 ^ (cellOf n).exponent =
    (magnitude .binary32 n + magnitude .binary32 (n + 1)) / 2 := by
  rw [magnitude_next, magnitude_eq, cellOf]
  generalize (Format.single.magnitude n).1 = m
  generalize (Format.single.magnitude n).2 = q
  show ((4 * m + 2 : ℕ) : ℝ) * 2 ^ (q - 2) = _
  rw [zpow_sub₀ two_ne_zero]
  push_cast
  norm_num
  ring

/-! ## Patterns with a sign -/

variable {negative : Bool}

lemma singleSign_eq : singleSign negative = singleSign negative &&& signBit := by
  cases negative <;> rfl

lemma toNat_or_singleSign (hn : n < 0x7F800000) :
    (n.toUInt32 ||| singleSign negative).toNat % 2 ^ 31 = n := by
  have hword : n.toUInt32.toNat = n := Nat.mod_eq_of_lt (by omega)
  rw [singleSign_eq, toNat_or_signBit, hword, Nat.mod_eq_of_lt (by omega)]

lemma toBits_ofBits_or_singleSign (hn : n < 0x7F800000) :
    (Float32.ofBits (n.toUInt32 ||| singleSign negative)).toBits =
      n.toUInt32 ||| singleSign negative :=
  toBits_ofBits (by rwa [toNat_or_singleSign hn])

/-- A pattern is its size with its sign. -/
lemma and_or_signBit (w : UInt32) : (w &&& 0x7FFFFFFF) ||| (w &&& signBit) = w := by
  have hall : (0x7FFFFFFF : UInt32).toNat ||| signBit.toNat = 2 ^ 32 - 1 := by decide
  rw [← UInt32.toNat_inj, UInt32.toNat_or, UInt32.toNat_and, UInt32.toNat_and,
    ← Nat.and_or_distrib_left, hall, Nat.and_two_pow_sub_one_eq_mod, Nat.mod_eq_of_lt w.toNat_lt]

/-- A finite number is a size below infinity with a sign. -/
lemma exists_size (hx : IsFinite x) : ∃ n negative, n < 0x7F800000 ∧
    x = Float32.ofBits (n.toUInt32 ||| singleSign negative) := by
  refine ⟨(x.toBits &&& 0x7FFFFFFF).toNat, x.toBits.toNat.testBit 31, isFinite_iff_toNat_lt.mp hx,
    ?_⟩
  have hsign : singleSign (x.toBits.toNat.testBit 31) = x.toBits &&& signBit := by
    rw [← UInt32.toNat_inj, toNat_and_signBit]
    cases x.toBits.toNat.testBit 31 <;> rfl
  have hself : (x.toBits &&& 0x7FFFFFFF).toNat.toUInt32 = x.toBits &&& 0x7FFFFFFF :=
    UInt32.ofNat_toNat
  rw [hsign, hself, and_or_signBit, ofBits_toBits hx]

/-- The decimal of a pattern. -/
def shortestOf (n : ℕ) : Scaled :=
  shortest .single .toEven (Format.single.magnitude n).1 (Format.single.magnitude n).2

/-- The text of a number in a document. -/
lemma document_ofBits (hn : n < 0x7F800000) :
    document (Float32.ofBits (n.toUInt32 ||| singleSign negative)) =
      signed negative (if n = 0 then "0.0".toList else spelled (shortestOf n)) := by
  have hsize : ((n.toUInt32 ||| singleSign negative) &&& 0x7FFFFFFF).toNat = n := by
    rw [toNat_and_single, toNat_or_singleSign hn]
  have hnegative : decide (signBit ≤ n.toUInt32 ||| singleSign negative) = negative := by
    have hword : n.toUInt32.toNat = n := Nat.mod_eq_of_lt (by omega)
    cases negative with
    | false =>
      have hself : n.toUInt32 ||| singleSign false = n.toUInt32 := UInt32.or_zero
      rw [decide_eq_false_iff_not, hself, UInt32.le_iff_toNat_le, hword]
      show ¬ 2 ^ 31 ≤ n
      omega
    | true =>
      rw [decide_eq_true_eq, UInt32.le_iff_toNat_le, UInt32.toNat_or]
      exact Nat.right_le_or
  have hinfinity : Format.single.infinity = 0x7F800000 := by decide
  unfold document Spelled.ofSingle
  simp only [toBits_ofBits_or_singleSign hn, hsize, hnegative, hinfinity]
  rw [if_neg (by omega), if_neg (by omega)]
  split_ifs with hzero
  · rfl
  · rfl

/-! ## Reading a number back -/

/-- A text of digits is read as a double and not as a name of a special number. -/
lemma float?_signed {text : List Char} (h : ∃ c rest, text = c :: rest ∧ c.isDigit = true) :
    float? (signed negative text) = (readDouble (signed negative text)).filter Float.isFinite := by
  obtain ⟨c, rest, rfl, hc⟩ := h
  have hne : ∀ {d : Char}, d.isDigit = false → c ≠ d := by
    rintro d hd rfl
    rw [hd] at hc
    cases hc
  have hplus : c ≠ '+' := hne (by decide)
  have hminus : c ≠ '-' := hne (by decide)
  have hpoint : c ≠ '.' := hne (by decide)
  unfold float?
  cases negative with
  | false => simp [signed, hplus, hminus, hpoint]
  | true => simp [signed, hpoint]

lemma readDouble_signed {text : List Char} (h : ∃ c rest, text = c :: rest ∧ c.isDigit = true)
    {k : ℕ} {e : ℤ} (hread : readUnsigned text = some (k, e)) :
    readDouble (signed negative text) = some (nearestDouble negative k e) := by
  obtain ⟨c, rest, rfl, hc⟩ := h
  cases negative with
  | false =>
    have hminus : c ≠ '-' := by
      rintro rfl
      revert hc
      decide
    unfold readDouble signed
    simp [hread, hminus]
  | true => simp [readDouble, signed, hread]

/-- A real midway between the magnitude of a size and one of its neighbours. -/
def Midway (n : ℕ) (r : ℝ) : Prop :=
  r = (magnitude .binary32 (n - 1) + magnitude .binary32 n) / 2 ∨
    r = (magnitude .binary32 n + magnitude .binary32 (n + 1)) / 2

/-- The decimal of a number is read as the double midway to one of its neighbours, which has the
even pattern and so is the one that a tie goes to. -/
def Torn (x : Float32) : Prop :=
  ¬ Even (x.toBits &&& 0x7FFFFFFF).toNat ∧
    ∃ y ∈ readDouble (document x), Midway (x.toBits &&& 0x7FFFFFFF).toNat |val y|

lemma isFinite_ofBits_or_doubleSign (negative : Bool) {p : ℕ} (hp : p < 0x7FF0000000000000) :
    (Float.ofBits (p.toUInt64 ||| doubleSign negative)).isFinite = true ∧
      |val (Float.ofBits (p.toUInt64 ||| doubleSign negative))| = magnitude .binary64 p := by
  have hword : p.toUInt64.toNat = p := Nat.mod_eq_of_lt (by omega)
  have hsize : (p.toUInt64 ||| doubleSign negative).toNat % 2 ^ 63 = p := by
    rw [toNat_or_doubleSign _ (by omega), hword]
  have hlt : size (f := .binary64) (p.toUInt64 ||| doubleSign negative).toBitVec <
      infinitySize .binary64 := by
    show (p.toUInt64 ||| doubleSign negative).toNat % 2 ^ 63 < 0x7FF0000000000000
    rwa [hsize]
  refine ⟨isFinite_ofPattern (α := Float) hlt, (abs_val_ofPattern (α := Float) hlt).trans ?_⟩
  show magnitude .binary64 ((p.toUInt64 ||| doubleSign negative).toNat % 2 ^ 63) = _
  rw [hsize]

/-- The double that the text of a number is read as lies between the midpoints around it. -/
lemma readDouble_document (negative : Bool) (hn : 0 < n) (hn' : n < 0x7F800000) :
    ∃ p < 0x7FF0000000000000,
      readDouble (document (Float32.ofBits (n.toUInt32 ||| singleSign negative))) =
        some (Float.ofBits (p.toUInt64 ||| doubleSign negative)) ∧
      (magnitude .binary32 (n - 1) + magnitude .binary32 n) / 2 ≤ magnitude .binary64 p ∧
      magnitude .binary64 p ≤ (magnitude .binary32 n + magnitude .binary32 (n + 1)) / 2 := by
  have hmono := magnitude_strictMono (f := .binary32)
  have hmono' := magnitude_strictMono (f := .binary64)
  obtain ⟨hm, hm', hq, hq'⟩ := significand_spec hn hn'
  obtain ⟨⟨hlow, hhigh⟩, hexponent⟩ := covers_shortest hm hm' hq hq' .toEven
  rw [← cellOf, low_cellOf hn hn'] at hlow
  rw [← cellOf, high_cellOf] at hhigh
  obtain ⟨k, e, hread, hvalue, he⟩ := readUnsigned_spelled (shortestOf n)
  rw [shortestOf] at hvalue he
  rw [← hvalue] at hlow hhigh
  have hk : 0 < k := by
    rcases Nat.eq_zero_or_pos k with rfl | hk
    · rw [Nat.cast_zero, zero_mul] at hlow
      linarith [hmono hn, magnitude_nonneg (f := .binary32) (n - 1),
        magnitude_zero (f := .binary32)]
    · exact hk
  obtain ⟨p₁, hp₁⟩ := exists_midpoint (n - 1)
  obtain ⟨p₂, hp₂⟩ := exists_midpoint n
  rw [Nat.sub_add_cancel hn] at hp₁
  have hlimit : magnitude .binary64 p₂ < 2 ^ 128 := by
    have hnext := hmono.monotone (show n + 1 ≤ 0x7F800000 by omega)
    have htop : magnitude .binary32 0x7F800000 = 2 ^ 128 := by
      rw [magnitude_binary32]
      norm_num
    linarith [midpoint_lt n]
  obtain ⟨p, hle₁, hle₂, hnearest⟩ := exists_nearestDouble negative hk (by omega)
    (hlimit.le.trans (pow_le_pow_right₀ one_le_two (by norm_num)))
    (hp₁ ▸ hlow) (hp₂ ▸ hhigh)
  refine ⟨p, ?_, ?_, hp₁ ▸ hmono'.monotone hle₁, hp₂ ▸ hmono'.monotone hle₂⟩
  · have hinfinity : magnitude .binary64 0x7FF0000000000000 = limit .binary64 :=
      magnitude_infinitySize (by decide)
    have hle : (2 : ℝ) ^ 128 ≤ limit .binary64 := pow_le_pow_right₀ one_le_two (by decide)
    rw [← hmono'.lt_iff_lt, hinfinity]
    linarith [hmono'.monotone hle₂]
  · rw [document_ofBits hn', if_neg hn.ne', readDouble_signed (isDigit_head_spelled _) hread,
      hnearest]

lemma size_injective {m : ℕ} (hm : m < 0x7F800000) (hn : n < 0x7F800000)
    (h : Float32.ofBits (m.toUInt32 ||| singleSign negative) =
      Float32.ofBits (n.toUInt32 ||| singleSign negative)) : m = n := by
  have hbits := congrArg (fun x : Float32 => x.toBits.toNat % 2 ^ 31) h
  rwa [toBits_ofBits_or_singleSign hm, toBits_ofBits_or_singleSign hn, toNat_or_singleSign hm,
    toNat_or_singleSign hn] at hbits

/-- From a midpoint an odd number is left for its neighbour. -/
lemma narrow_ne_of_midway {p : ℕ} (hn : 0 < n) (hn' : n < 0x7F800000) (hodd : ¬ Even n)
    (h : Midway n (magnitude .binary64 p)) :
    narrow (Float.ofBits (p.toUInt64 ||| doubleSign negative)) ≠
      Float32.ofBits (n.toUInt32 ||| singleSign negative) := by
  have hmono' := magnitude_strictMono (f := .binary64)
  have heven : Even (n - 1) ∧ Even (n + 1) := by
    rw [Nat.not_even_iff_odd] at hodd
    exact ⟨Nat.Odd.sub_odd hodd odd_one, hodd.add_one⟩
  rcases h with h | h
  · obtain ⟨m, rfl⟩ : ∃ m, n = m + 1 := ⟨n - 1, by omega⟩
    rw [Nat.add_sub_cancel] at h heven
    rcases Nat.eq_zero_or_pos m with rfl | hm
    · -- Half of the smallest single is rounded to zero.
      have hp : p = 873 * 2 ^ 52 := by
        apply hmono'.injective
        rw [h, magnitude_zero, magnitude_binary32, magnitude_binary64]
        norm_num
      rw [hp]
      cases negative <;> decide +kernel
    · have hmid := midpoint_lt (m - 1)
      rw [Nat.sub_add_cancel hm] at hmid
      have hnarrow := narrow_eq hm (by linarith [lt_midpoint m]) h.le
        (.inl heven.1) negative (by omega)
      rw [hnarrow]
      intro heq
      have := size_injective (by omega) hn' heq
      omega
  · rcases (show n + 1 ≤ 0x7F800000 by omega).lt_or_eq with hm | hm
    · have hnarrow := narrow_eq (Nat.succ_pos n) h.ge
        (by linarith [midpoint_lt n, lt_midpoint (n + 1)]) (.inl heven.2) negative hm
      rw [hnarrow]
      intro heq
      have := size_injective hm hn' heq
      omega
    · -- The midpoint before infinity is rounded to it.
      have hp : p = 0x7F7FFFFF * 2 ^ 29 + 2 ^ 28 + 896 * 2 ^ 52 := by
        apply hmono'.injective
        rw [h, show n = 0x7F7FFFFF by omega, midpoint_eq (by norm_num)]
      rw [hp, show n = 0x7F7FFFFF by omega]
      cases negative <;> decide +kernel

/-- **Survival.**  A finite number is read back from its text in a document exactly if it is not
torn. -/
theorem narrow_document (hx : IsFinite x) :
    ∃ y, float? (document x) = some y ∧ (narrow y = x ↔ ¬ Torn x) := by
  obtain ⟨n, negative, hn', rfl⟩ := exists_size hx
  rcases Nat.eq_zero_or_pos n with rfl | hn
  · have htorn : ¬ Torn (Float32.ofBits ((0 : ℕ).toUInt32 ||| singleSign negative)) := fun h =>
      h.1 (by
      rw [toNat_and_single, toBits_ofBits_or_singleSign hn', toNat_or_singleSign hn']
      exact Even.zero)
    refine ⟨Float.ofBits (doubleSign negative), ?_, iff_of_true ?_ htorn⟩
    · cases negative <;> decide +kernel
    · cases negative <;> decide +kernel
  obtain ⟨p, hp, hdouble, hlow, hhigh⟩ := readDouble_document negative hn hn'
  obtain ⟨hfinite, hval⟩ := isFinite_ofBits_or_doubleSign negative hp
  have hself : ((n.toUInt32 ||| singleSign negative) &&& 0x7FFFFFFF).toNat = n := by
    rw [toNat_and_single, toNat_or_singleSign hn']
  have htorn : Torn (Float32.ofBits (n.toUInt32 ||| singleSign negative)) ↔
      ¬ Even n ∧ Midway n (magnitude .binary64 p) := by
    rw [Torn, toBits_ofBits_or_singleSign hn', hself, hdouble]
    simp [hval]
  have hfloat : float? (document (Float32.ofBits (n.toUInt32 ||| singleSign negative))) =
      some (Float.ofBits (p.toUInt64 ||| doubleSign negative)) := by
    rw [document_ofBits hn', if_neg hn.ne'] at hdouble ⊢
    rw [float?_signed (isDigit_head_spelled _), hdouble, Option.filter_some, if_pos hfinite]
  refine ⟨_, hfloat, ?_⟩
  rw [htorn]
  constructor
  · rintro hnarrow ⟨hodd, hmid⟩
    exact narrow_ne_of_midway hn hn' hodd hmid hnarrow
  · intro hnot
    refine narrow_eq hn hlow hhigh ?_ negative hn'
    by_cases heven : Even n
    · exact .inl heven
    · exact .inr (not_or.mp fun hmid => hnot ⟨heven, hmid⟩)

end Arbor.Decimal
