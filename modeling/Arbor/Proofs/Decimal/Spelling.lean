import Arbor.Proofs.Decimal.Shortest

/-!
# Written decimals are read back

The text of a scaled decimal in a document, positional or with an exponent, is read as a decimal of
the same value (`readUnsigned_spelled`).  The digits may be read with another exponent, as a number
without a fraction is written with a zero behind its point.
-/

namespace Arbor.Decimal

open Number Text.Json

variable {ds es rest whole fraction : List Char} {n : ℕ} {e k : ℤ}

lemma value_digits (n : ℕ) : value (digits n) = n := Nat.ofDigitChars_ten_toDigits

lemma value_concat (ds : List Char) (c : Char) :
    value (ds ++ [c]) = 10 * value ds + (c.toNat - '0'.toNat) := by
  rw [value, List.foldl_append]
  rfl

lemma value_append (ds es : List Char) :
    value (ds ++ es) = value ds * 10 ^ es.length + value es := by
  induction es using List.reverseRecOn with
  | nil => simp [value]
  | append_singleton es c ih =>
    rw [← List.append_assoc, value_concat, ih, value_concat, List.length_append,
      List.length_singleton, pow_succ]
    ring

lemma value_replicate_zero (m : ℕ) : value (List.replicate m '0') = 0 := by
  induction m with
  | zero => rfl
  | succ m ih =>
    rw [List.replicate_succ', value_append, ih]
    rfl

/-! ## Reading -/

/-- No digit goes on here. -/
def Stops (rest : List Char) : Prop := ∀ c ∈ rest.head?, c.isDigit = false

lemma takeWhile_digits (rest : List Char) (h : ∀ c ∈ ds, c.isDigit = true) (hrest : Stops rest) :
    (ds ++ rest).takeWhile Char.isDigit = ds ∧ (ds ++ rest).dropWhile Char.isDigit = rest := by
  rw [List.takeWhile_append_of_pos h, List.dropWhile_append_of_pos h]
  cases rest with
  | nil => simp
  | cons c rest =>
    have hc : c.isDigit = false := hrest c rfl
    rw [List.takeWhile_cons_of_neg (by simp [hc]), List.dropWhile_cons_of_neg (by simp [hc])]
    simp

/-- Digits, a point and digits. -/
lemma readUnsigned_point (whole fraction rest : List Char) (hwhole : Digits whole)
    (hfraction : ∀ c ∈ fraction, c.isDigit = true) (hrest : Stops rest)
    (he : readExponent rest = some e) :
    readUnsigned (whole ++ '.' :: (fraction ++ rest)) =
      some (value (whole ++ fraction), e - fraction.length) := by
  obtain ⟨htake, hdrop⟩ := takeWhile_digits ('.' :: (fraction ++ rest)) hwhole.2
    (fun c hc => by cases hc; decide)
  obtain ⟨htake', hdrop'⟩ := takeWhile_digits _ hfraction hrest
  have hempty : whole.isEmpty = false := List.isEmpty_eq_false_iff.mpr hwhole.1
  unfold readUnsigned
  simp only [htake, hdrop, htake', hdrop', hempty, he]
  rfl

lemma readUnsigned_fraction (whole fraction : List Char) (hwhole : Digits whole)
    (hfraction : ∀ c ∈ fraction, c.isDigit = true) :
    readUnsigned (whole ++ '.' :: fraction) =
      some (value (whole ++ fraction), -(fraction.length : ℤ)) := by
  have h := readUnsigned_point _ _ [] hwhole hfraction (fun c hc => by cases hc) rfl
  rwa [List.append_nil, zero_sub] at h

/-- Digits without a point. -/
lemma readUnsigned_whole (hwhole : Digits whole) (hrest : Stops rest)
    (hpoint : rest.head? ≠ some '.') (he : readExponent rest = some e) :
      readUnsigned (whole ++ rest) = some (value whole, e) := by
  obtain ⟨htake, hdrop⟩ := takeWhile_digits _ hwhole.2 hrest
  have hempty : whole.isEmpty = false := List.isEmpty_eq_false_iff.mpr hwhole.1
  unfold readUnsigned
  simp only [htake, hdrop]
  split
  · exact absurd rfl hpoint
  · simp [hempty, he]

lemma digits_ne_cons {c : Char} (hc : c.isDigit = false) (n : ℕ) (ds : List Char) :
    digits n ≠ c :: ds := fun h => by
  have hdigit := (digits_digits n).2 c (h ▸ List.mem_cons_self)
  rw [hc] at hdigit
  cases hdigit

/-- The text of an integer: the digits of its magnitude behind its sign. -/
lemma toList_toString (k : ℤ) :
    (toString k).toList = signed (decide (k < 0)) (digits k.natAbs) := by
  have hdigits : ∀ n : ℕ, (toString n).toList = digits n := fun n => by
    rw [Nat.toString_eq_ofList_toDigits, String.toList_ofList, digits]
  cases k with
  | ofNat n => exact hdigits n
  | negSucc n =>
    have hn : (toString (Int.negSucc n)).toList = '-' :: digits (n + 1) := by
      rw [← hdigits]
      show ("-" ++ toString (n + 1)).toList = _
      rw [String.toList_append]
      rfl
    rw [hn, decide_eq_true (Int.negSucc_lt_zero n)]
    rfl

lemma readExponent_toString (k : ℤ) : readExponent ('e' :: (toString k).toList) = some k := by
  have hempty : (digits k.natAbs).isEmpty = false :=
    List.isEmpty_eq_false_iff.mpr (digits_digits _).1
  have hall : (digits k.natAbs).all Char.isDigit = true := List.all_eq_true.mpr (digits_digits _).2
  rw [toList_toString]
  by_cases hk : k < 0
  · rw [decide_eq_true hk, signed, if_pos rfl, readExponent, if_pos (.inl rfl)]
    simp [hempty, hall, value_digits, abs_of_neg hk]
  · rw [decide_eq_false hk, signed, if_neg Bool.false_ne_true, readExponent, if_pos (.inl rfl)]
    · simp [hempty, hall, value_digits, abs_of_nonneg (not_lt.mp hk)]
    · exact fun ds => digits_ne_cons (by decide) _ ds
    · exact fun ds => digits_ne_cons (by decide) _ ds

/-! ## Texts of decimals -/

/-- The text of a decimal in a document. -/
def spelled (d : Scaled) : List Char :=
  let ds := digits d.digits
  let point := ds.length + d.exponent
  if -5 ≤ point ∧ point ≤ 13 then positional ".0".toList ds d.exponent
  else scientific ds (point - 1)

/-- Positional notation: the digits that are read are those of the number, and zeros. -/
lemma readUnsigned_positional (hds : Digits ds) (e : ℤ) :
    ∃ n k, readUnsigned (positional ".0".toList ds e) = some (n, k) ∧
      (n : ℝ) * 10 ^ k = value ds * 10 ^ e ∧ min (-1) e ≤ k := by
  unfold positional
  dsimp only
  split_ifs with hwhole hpoint
  · refine ⟨_, _, readUnsigned_fraction _ ['0'] (digits_append_zeros hds _)
      (List.forall_mem_singleton.mpr rfl), ?_, min_le_left _ _⟩
    obtain ⟨m, rfl⟩ : ∃ m : ℕ, e = m := ⟨e.toNat, by omega⟩
    have hzero : value ['0'] = 0 := rfl
    rw [value_append, value_append, value_replicate_zero, hzero, List.length_replicate,
      Int.toNat_natCast, List.length_singleton, zpow_natCast]
    push_cast
    norm_num
    ring
  · -- The point is behind some digit and before another one.
    have htake : ds.take (ds.length + e).toNat ≠ [] := by
      rw [Ne, List.take_eq_nil_iff, not_or]
      exact ⟨by omega, hds.1⟩
    refine ⟨_, _, readUnsigned_fraction _ _ ⟨htake, fun c hc => hds.2 c (List.mem_of_mem_take hc)⟩
      (fun c hc => hds.2 c (List.mem_of_mem_drop hc)), ?_, ?_⟩
    · rw [List.take_append_drop, List.length_drop]
      congr 2
      omega
    · rw [List.length_drop]
      omega
  · refine ⟨_, _, readUnsigned_fraction ['0']
      (List.replicate (-((ds.length : ℤ) + e)).toNat '0' ++ ds)
        ⟨List.cons_ne_nil _ _, List.forall_mem_singleton.mpr rfl⟩
      (zeros_append_digits hds _).2, ?_, ?_⟩
    · have hzero : value ['0'] = 0 := rfl
      rw [value_append, value_append, value_replicate_zero, hzero, Nat.zero_mul, Nat.zero_mul,
        Nat.zero_add, Nat.zero_add, List.length_append, List.length_replicate]
      congr 2
      omega
    · rw [List.length_append, List.length_replicate]
      omega

/-- Notation with an exponent. -/
lemma readUnsigned_scientific (hds : Digits ds) (k : ℤ) :
    ∃ n e, readUnsigned (scientific ds k) = some (n, e) ∧
      (n : ℝ) * 10 ^ e = value ds * 10 ^ (k + 1 - ds.length) ∧ e = k + 1 - ds.length := by
  obtain ⟨c, cs, rfl⟩ := List.exists_cons_of_ne_nil hds.1
  have hexponent := readExponent_toString k
  have hstops : Stops ('e' :: (toString k).toList) := fun c hc => by
    cases hc
    decide
  have hwhole : Digits [c] := ⟨by simp, fun d hd => hds.2 d (by simp_all)⟩
  cases cs with
  | nil =>
    refine ⟨_, _, readUnsigned_whole hwhole hstops (by simp) hexponent, ?_, ?_⟩
    · simp
    · simp
  | cons d ds =>
    have hread := readUnsigned_point [c] (d :: ds) _ hwhole
      (fun x hx => hds.2 x (List.mem_cons_of_mem _ hx)) hstops hexponent
    have hplace : k - ((d :: ds).length : ℤ) = k + 1 - ((c :: d :: ds).length : ℤ) := by
      rw [List.length_cons (a := c)]
      push_cast
      ring
    refine ⟨_, _, hread, ?_, hplace⟩
    rw [hplace]
    rfl

lemma readUnsigned_spelled (d : Scaled) :
    ∃ n k, readUnsigned (spelled d) = some (n, k) ∧ (n : ℝ) * 10 ^ k = d.val ∧
      min (-1) d.exponent ≤ k := by
  have hds := digits_digits d.digits
  unfold spelled
  dsimp only
  rw [Scaled.val]
  split_ifs
  · obtain ⟨n, k, hread, hvalue, hk⟩ := readUnsigned_positional hds d.exponent
    rw [value_digits] at hvalue
    exact ⟨n, k, hread, hvalue, hk⟩
  · obtain ⟨n, k, hread, hvalue, hk⟩ :=
      readUnsigned_scientific hds ((digits d.digits).length + d.exponent - 1)
    have hplace : ((digits d.digits).length : ℤ) + d.exponent - 1 + 1 - (digits d.digits).length =
        d.exponent := by
      ring
    rw [value_digits, hplace] at hvalue
    exact ⟨n, k, hread, hvalue, by omega⟩

lemma isDigit_head_spelled (d : Scaled) : ∃ c rest, spelled d = c :: rest ∧ c.isDigit = true := by
  obtain ⟨c, cs, hcs⟩ := List.exists_cons_of_ne_nil (digits_digits d.digits).1
  have hc := (digits_digits d.digits).2 c (hcs ▸ List.mem_cons_self)
  unfold spelled
  dsimp only
  rw [hcs]
  split_ifs
  · unfold positional
    dsimp only
    split_ifs with hwhole hpoint
    · exact ⟨c, _, rfl, hc⟩
    · obtain ⟨m, hm⟩ : ∃ m, (((c :: cs).length : ℤ) + d.exponent).toNat = m + 1 :=
        ⟨(((c :: cs).length : ℤ) + d.exponent).toNat - 1, by omega⟩
      rw [hm]
      exact ⟨c, _, rfl, hc⟩
    · exact ⟨'0', _, rfl, by decide⟩
  · exact ⟨c, _, rfl, hc⟩

end Arbor.Decimal
