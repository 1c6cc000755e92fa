import Arbor.Decimal.Text
import Arbor.Proofs.Number.Range
import Arbor.Proofs.Text.Json

/-!
# Written numbers as JSON numerals

The positional notation of a finite number is a numeral of JSON (`numeral_message`): its digits are
those of a positive natural number, so none of them is a zero in front.  Numbers that are not finite
are written as words, which a scanner refuses outside of strings (`scan_message_of_not_finite`).
-/

namespace Arbor.Decimal

open Number Text.Json

/-! ## The digits are those of a positive number -/

section Search

variable {c : Cell} {tie : Tie} {k : ℤ} {d : ℕ}

lemma pos_of_holds (hlow : 0 < c.low) (h : c.holds k d = true) : 0 < d := by
  have hpos : 0 < c.binary k c.low :=
    Nat.mul_pos (Nat.mul_pos hlow (Nat.pow_pos (by norm_num))) (Nat.pow_pos (by norm_num))
  rw [Nat.pos_iff_ne_zero]
  rintro rfl
  have hzero : c.decimal k 0 = 0 := by rw [Cell.decimal, Nat.zero_mul, Nat.zero_mul]
  rw [Cell.holds, hzero] at h
  split_ifs at h
  all_goals
    simp only [Bool.and_eq_true, decide_eq_true_eq] at h
    omega

lemma holds_of_nearestOnGrid (h : nearestOnGrid c tie k = some d) : c.holds k d = true := by
  unfold nearestOnGrid at h
  dsimp only at h
  split at h
  · cases h
  · cases h
    assumption
  · cases h
    assumption
  · -- Both neighbours are held, so the choice between them does not matter.
    cases tie <;> dsimp only at h <;> split_ifs at h <;> cases h <;> assumption

lemma searchGrids_pos (hlow : 0 < c.low) (hmiddle : 0 < c.middle) (top : ℤ) (fuel n : ℕ) :
    0 < (searchGrids c tie top fuel n).digits := by
  induction fuel generalizing n with
  | zero => exact hmiddle
  | succ fuel ih =>
    rw [searchGrids]
    split
    · next d hd => exact pos_of_holds hlow (holds_of_nearestOnGrid hd)
    · exact ih (n + 1)

lemma trim_pos (fuel : ℕ) {s : Scaled} (h : 0 < s.digits) : 0 < (s.trim fuel).digits := by
  induction fuel generalizing s with
  | zero => exact h
  | succ fuel ih =>
    rw [Scaled.trim]
    split_ifs with hzero
    · exact ih (show 0 < s.digits / 10 by omega)
    · exact h

lemma shortest_pos (f : Number.Format) {m : ℕ} (hm : 0 < m) (q : ℤ) :
    0 < (shortest f tie m q).digits := by
  apply trim_pos
  apply searchGrids_pos
  · show 0 < 4 * m - _
    split_ifs <;> omega
  · show 0 < 4 * m
    omega

end Search

/-! ## Numerals -/

section Digits

variable {n : ℕ}

lemma digits_digits (n : ℕ) : Digits (digits n) :=
  ⟨Nat.toDigits_ne_nil, fun _ hc => Nat.isDigit_of_mem_toDigits (by norm_num) (by norm_num) hc⟩

/-- The leading digit of a positive number. -/
lemma head?_digits_ne_zero (hn : 0 < n) : (digits n).head? ≠ some '0' := by
  induction n using Nat.strongRecOn with
  | ind n ih =>
    rw [digits, Nat.toDigits_eq_if (by norm_num)]
    split_ifs with hlt
    · interval_cases n <;> decide
    · have hne : Nat.toDigits 10 (n / 10) ≠ [] := Nat.toDigits_ne_nil
      rw [List.head?_append_of_ne_nil _ hne]
      exact ih (n / 10) (by omega) (by omega)

lemma whole_of_head? {t : List Char} (h : Digits t) (hhead : t.head? ≠ some '0') : Whole t :=
  ⟨h, fun h0 => absurd h0 hhead⟩

lemma whole_zero : Whole ['0'] := ⟨⟨by decide, by simp⟩, fun _ => rfl⟩

/-- A whole part, and maybe a fraction. -/
def Unsigned (t : List Char) : Prop :=
  ∃ whole fraction, Whole whole ∧ (fraction = [] ∨ ∃ ds, Digits ds ∧ fraction = '.' :: ds) ∧
    t = whole ++ fraction

lemma unsigned_of_whole {t : List Char} (h : Whole t) : Unsigned t :=
  ⟨t, [], h, .inl rfl, (List.append_nil t).symm⟩

lemma unsigned_of_fraction {t ds : List Char} (h : Whole t) (hds : Digits ds) :
    Unsigned (t ++ '.' :: ds) :=
  ⟨t, '.' :: ds, h, .inr ⟨ds, hds, rfl⟩, rfl⟩

lemma Unsigned.numeral {t : List Char} (h : Unsigned t) (negative : Bool) :
    Numeral (signed negative t) := by
  obtain ⟨whole, fraction, hwhole, hfraction, rfl⟩ := h
  have hmk : ∀ {sign : List Char}, sign = [] ∨ sign = ['-'] →
      Numeral (sign ++ (whole ++ fraction)) := by
    intro sign hsign
    have := Numeral.mk hsign hwhole hfraction (.inl rfl)
    rwa [List.append_nil, List.append_assoc] at this
  cases negative with
  | false => exact hmk (.inl rfl)
  | true => exact hmk (.inr rfl)

/-- A natural number. -/
theorem numeral_natural (n : ℕ) : Numeral (toString n).toList := by
  rw [Nat.toString_eq_ofList_toDigits, String.toList_ofList]
  refine (unsigned_of_whole ?_).numeral false
  rcases Nat.eq_zero_or_pos n with rfl | hn
  · exact whole_zero
  · exact whole_of_head? (digits_digits n) (head?_digits_ne_zero hn)

/-- A natural number ends where a comma follows. -/
lemma toString_append_injective {m n : ℕ} {t u : List Char}
    (h : (toString m).toList ++ ',' :: t = (toString n).toList ++ ',' :: u) : m = n ∧ t = u := by
  rw [Nat.toString_eq_ofList_toDigits, Nat.toString_eq_ofList_toDigits, String.toList_ofList,
    String.toList_ofList, ← digits, ← digits] at h
  have htake : ∀ (k : ℕ) (t : List Char), (digits k ++ ',' :: t).takeWhile Char.isDigit =
      digits k := by
    intro k t
    rw [List.takeWhile_append_of_pos fun c hc => (digits_digits k).2 c hc,
      List.takeWhile_cons_of_neg (by decide), List.append_nil]
  have hmn := congrArg (List.takeWhile Char.isDigit) h
  rw [htake, htake] at hmn
  obtain rfl : m = n := by
    rw [← Nat.ofDigitChars_ten_toDigits (n := m), ← digits, hmn, digits,
      Nat.ofDigitChars_ten_toDigits]
  exact ⟨rfl, (List.cons.inj (List.append_cancel_left h)).2⟩

lemma digits_append_zeros {ds : List Char} (h : Digits ds) (k : ℕ) :
    Digits (ds ++ List.replicate k '0') := by
  refine ⟨fun hnil => h.1 (List.append_eq_nil_iff.mp hnil).1, fun c hc => ?_⟩
  rcases List.mem_append.mp hc with hc | hc
  · exact h.2 c hc
  · rw [List.eq_of_mem_replicate hc]
    decide

lemma zeros_append_digits {ds : List Char} (h : Digits ds) (k : ℕ) :
    Digits (List.replicate k '0' ++ ds) := by
  refine ⟨fun hnil => h.1 (List.append_eq_nil_iff.mp hnil).2, fun c hc => ?_⟩
  rcases List.mem_append.mp hc with hc | hc
  · rw [List.eq_of_mem_replicate hc]
    decide
  · exact h.2 c hc

lemma unsigned_positional {ds : List Char} (h : Digits ds) (hhead : ds.head? ≠ some '0') (e : ℤ) :
    Unsigned (positional [] ds e) := by
  unfold positional
  dsimp only
  split_ifs with hwhole hpoint
  · rw [List.append_nil]
    apply unsigned_of_whole
    apply whole_of_head? (digits_append_zeros h _)
    rwa [List.head?_append_of_ne_nil _ h.1]
  · -- The point is behind some digit and before another one.
    have htake : ds.take (ds.length + e).toNat ≠ [] := by
      rw [Ne, List.take_eq_nil_iff, not_or]
      exact ⟨by omega, h.1⟩
    have hdrop : ds.drop (ds.length + e).toNat ≠ [] := by
      rw [Ne, List.drop_eq_nil_iff]
      omega
    apply unsigned_of_fraction
    · apply whole_of_head? ⟨htake, fun c hc => h.2 c (List.mem_of_mem_take hc)⟩
      rwa [List.head?_take, if_neg (by omega)]
    · exact ⟨hdrop, fun c hc => h.2 c (List.mem_of_mem_drop hc)⟩
  · exact unsigned_of_fraction whole_zero (zeros_append_digits h _)

end Digits

/-! ## The notation of messages -/

variable {x : Float32}

lemma toNat_infinity : Number.Format.single.infinity = 0x7F800000 := by decide

lemma ofSingle_of_isFinite (tie : Tie) (h : IsFinite x) :
    (∃ negative, Spelled.ofSingle tie x = .zero negative) ∨
      ∃ negative d, 0 < d.digits ∧ Spelled.ofSingle tie x = .finite negative d := by
  have hsize := isFinite_iff_toNat_lt.mp h
  unfold Spelled.ofSingle
  rw [toNat_infinity]
  dsimp only
  rw [if_neg hsize.not_gt, if_neg hsize.ne]
  split_ifs with hzero
  · exact .inl ⟨_, rfl⟩
  · refine .inr ⟨_, _, shortest_pos _ ?_ _, rfl⟩
    unfold Number.Format.magnitude
    dsimp only
    split_ifs with hfield
    · show 0 < (x.toBits &&& 0x7FFFFFFF).toNat % Nat.pow 2 23
      change (x.toBits &&& 0x7FFFFFFF).toNat / Nat.pow 2 23 = 0 at hfield
      have := Nat.div_add_mod (x.toBits &&& 0x7FFFFFFF).toNat (Nat.pow 2 23)
      rw [hfield, Nat.mul_zero, Nat.zero_add] at this
      omega
    · exact Nat.add_pos_right _ (Nat.pow_pos (by norm_num))

/-- A finite number is written as a numeral. -/
theorem numeral_message (h : IsFinite x) : Numeral (message x).toList := by
  rw [message, String.toList_ofList]
  obtain ⟨negative, hx⟩ | ⟨negative, d, hd, hx⟩ := ofSingle_of_isFinite .up h
  · rw [hx]
    exact (unsigned_of_whole whole_zero).numeral negative
  · rw [hx]
    exact (unsigned_positional (digits_digits _) (head?_digits_ne_zero hd) _).numeral negative

/-- Other numbers are words, with a letter that no text has outside of strings. -/
theorem scan_message_of_not_finite (h : ¬ IsFinite x) :
    scan .outside (message x).toList = .refused := by
  rw [isFinite_iff_toNat_lt, not_lt] at h
  rw [message, String.toList_ofList]
  unfold Spelled.ofSingle
  rw [toNat_infinity]
  dsimp only
  rcases h.lt_or_eq with hlt | heq
  · rw [if_pos hlt]
    decide
  · rw [if_neg heq.not_lt, if_pos heq.symm]
    dsimp only
    cases decide (signBit ≤ x.toBits) <;> decide

end Arbor.Decimal
