import Arbor.Proofs.Document.Quoted

/-!
# Both kinds of quotes

In single quotes a quote is written twice, and the two separators are the only line breaks
(`quoted_singleQuoted`).  In double quotes every line break and every character that is not
printable is an escape, of which the reader makes the character again (`quoted_doubleQuoted`).
-/

namespace Arbor.Document

open Scalar

variable {c : Cursor} {text next rest : List Char} {ch : Char}

/-! ## Single quotes -/

lemma isPiece_single (hwhite : isWhite ch = false) (hbreak : isBreak ch = false) :
    IsPiece false ch (if ch == '\'' then [ch, ch] else [ch]) := by
  by_cases hquote : ch = '\''
  · subst hquote
    refine ⟨fun hc => ?_, by simp [isBreak], '\'', ['\''], rfl, rfl⟩
    rw [quotedWord, hc]
    simp [isWhite, isBreak]
  · rw [if_neg (by simpa using hquote)]
    refine ⟨fun hc => ?_, by simpa using hbreak, ch, [], rfl, hwhite⟩
    rw [quotedWord, hc]
    simp [hwhite, hbreak, hquote]

lemma quoting_single (h : admitsSingle text = true) (hfeed : '\n' ∉ text) :
    Quoting false (fun ch => if ch == '\'' then [ch, ch] else [ch]) isBreak text := by
  simp only [admitsSingle, Bool.and_eq_true, List.all_eq_true, Bool.not_eq_true',
    List.any_eq_false] at h
  obtain ⟨hprint, hplaces⟩ := h
  refine ⟨⟨rfl, rfl⟩, fun ch hch hb => ⟨?_, ?_⟩, fun ch hch hspace hb => ?_, ?_⟩
  · rcases isPlainBreak_of_isPrintable (hprint ch hch) hb with rfl | h
    · exact absurd hch hfeed
    · exact h
  · rw [if_neg]
    rw [beq_iff_eq]
    rintro rfl
    cases hb
  · apply isPiece_single _ hb
    cases hw : isWhite ch with
    | false => rfl
    | true => exact absurd (not_white_of_isPrintable (hprint ch hch) hw) hspace
  · rintro before ch ch' after rfl
    have hplace := hplaces _ (mem_places before (ch' :: after) ch)
    simp only [isBreakSpace, isSpaceBreak, List.head?_cons, Option.any_some] at hplace
    constructor
    · rintro ⟨hb, rfl⟩
      simp [hb] at hplace
    · rintro ⟨rfl, hb⟩
      simp [hb] at hplace

/-- **Single quotes.** -/
theorem quoted_singleQuoted (h : admitsSingle text = true) (hfeed : '\n' ∉ text)
    (hc : c.rest = singleQuoted 2 text ++ '\n' :: next) :
    ∃ c', quoted false c = some (text, c') ∧ c'.rest = '\n' :: next := by
  apply (quoting_single h hfeed).quoted_eq (by simp)
  rw [hc]
  simp [singleQuoted, quotedRest, quoteOf]

/-! ## Hexadecimal digits -/

lemma hexValue?_concat (ds : List Char) (d : Char) :
    hexValue? (ds ++ [d]) = (hexValue? ds).bind fun n => (hexValue? [d]).map (16 * n + ·) := by
  rw [hexValue?, List.foldl_append, ← hexValue?]
  cases hexValue? ds with
  | none => rfl
  | some n =>
    simp only [hexValue?, List.foldl_cons, List.foldl_nil, Option.bind_eq_bind, Option.bind_some]
    split_ifs <;> simp

lemma hexValue?_digitChar {n : ℕ} (h : n < 16) : hexValue? [n.digitChar.toUpper] = some n := by
  revert n
  decide

lemma isAlphanum_toDigits (n : ℕ) :
    ∀ d ∈ (Nat.toDigits 16 n).map Char.toUpper, d.isAlphanum = true := by
  have hdigit : ∀ k < 16, k.digitChar.toUpper.isAlphanum = true := by decide
  induction n using Nat.strongRecOn with
  | ind n ih =>
    rcases Nat.lt_or_ge n 16 with hlt | hge
    · rw [Nat.toDigits_of_lt_base hlt]
      simpa using hdigit n hlt
    · rw [Nat.toDigits_of_base_le (by norm_num) hge, List.map_append, List.forall_mem_append]
      exact ⟨ih _ (by omega), by simpa using hdigit _ (Nat.mod_lt n (by norm_num))⟩

lemma hexValue?_toDigits (n : ℕ) : hexValue? ((Nat.toDigits 16 n).map Char.toUpper) = some n := by
  induction n using Nat.strongRecOn with
  | ind n ih =>
    rcases Nat.lt_or_ge n 16 with hlt | hge
    · rw [Nat.toDigits_of_lt_base hlt]
      exact hexValue?_digitChar hlt
    · rw [Nat.toDigits_of_base_le (by norm_num) hge, List.map_append, List.map_singleton,
        hexValue?_concat, ih _ (by omega), hexValue?_digitChar (Nat.mod_lt n (by norm_num)),
        Option.bind_some, Option.map_some, Nat.div_add_mod]

lemma hexValue?_zeros (k : ℕ) (ds : List Char) :
    hexValue? (List.replicate k '0' ++ ds) = hexValue? ds := by
  induction k with
  | zero => rfl
  | succ k ih =>
    rw [List.replicate_succ, List.cons_append, hexValue?, List.foldl_cons, ← ih]
    rfl

/-- The digits of a number that fits are as many as they should be, and have its value. -/
lemma hexDigits_spec {width n : ℕ} (hpos : 0 < width) (h : n < 16 ^ width) :
    (hexDigits width n).length = width ∧ hexValue? (hexDigits width n) = some n := by
  have hlength := (Nat.length_toDigits_le_iff (b := 16) (by norm_num) hpos).mpr h
  constructor
  · simp only [hexDigits, List.length_append, List.length_replicate, List.length_map]
    omega
  · rw [hexDigits, hexValue?_zeros, hexValue?_toDigits]

/-! ## Double quotes -/

/-- A text behind a backslash that stands for a character. -/
structure IsEscape (ch : Char) (e : List Char) : Prop where
  ne_nil : e ≠ []
  inline : ∀ d ∈ e, isBreak d = false ∧ isAllowed d = true
  read : ∀ rest, escape? (e ++ rest) = some (ch, e.length + 1)

lemma isEscape_short {e : Char} (h : (e, ch.toNat) ∈ shortEscapes) : IsEscape ch [e] := by
  have hall : ∀ p ∈ shortEscapes, (isBreak p.1 = false ∧ isAllowed p.1 = true) ∧
      p.1 ∉ ['x', 'u', 'U'] ∧
      shortEscapes.lookup p.1 = some p.2 := by decide
  obtain ⟨hbreak, hhex, hlookup⟩ := hall _ h
  have hread : ∀ rest, escape? (e :: rest) =
      (shortEscapes.lookup e).map fun n => (Char.ofNat n, 2) := by
    intro rest
    unfold escape?
    split
    · next h => cases h
    all_goals simp_all
  exact ⟨by simp, by simpa using hbreak, fun rest => by
    rw [List.singleton_append, hread, hlookup, Option.map_some, Char.ofNat_toNat]
    rfl⟩

lemma hexEscape?_eq {width : ℕ} (hpos : 0 < width) (h : ch.toNat < 16 ^ width) (rest : List Char) :
    hexEscape? width (hexDigits width ch.toNat ++ rest) = some (ch, width + 2) := by
  obtain ⟨hlength, hvalue⟩ := hexDigits_spec hpos h
  have htake : (hexDigits width ch.toNat ++ rest).take width = hexDigits width ch.toNat :=
    List.take_left' hlength
  have hvalid : ch.toNat.isValidChar := ch.valid
  unfold hexEscape?
  dsimp only
  rw [htake, hlength, if_neg (lt_irrefl _), hvalue, Option.bind_eq_bind, Option.bind_some,
    dif_pos hvalid]
  rfl

lemma isEscape_hex {width : ℕ} {e : Char} (hpos : 0 < width) (h : ch.toNat < 16 ^ width)
    (he : IsWordChar e) (hread : ∀ rest, escape? (e :: rest) = hexEscape? width rest) :
    IsEscape ch (e :: hexDigits width ch.toNat) := by
  have hword : ∀ d ∈ e :: hexDigits width ch.toNat, IsWordChar d := by
    rw [List.forall_mem_cons, hexDigits, List.forall_mem_append]
    refine ⟨he, fun d hd => ?_, fun d hd => .inl (isAlphanum_toDigits _ d hd)⟩
    rw [List.eq_of_mem_replicate hd]
    decide
  refine ⟨List.cons_ne_nil _ _, fun d hd =>
    ⟨(hword d hd).inWord.2, (hword d hd).isAllowed⟩, fun rest => ?_⟩
  rw [List.cons_append, hread, hexEscape?_eq hpos h, List.length_cons, (hexDigits_spec hpos h).1]

/-- An escape stands for its character. -/
lemma escapeOf_spec (ch : Char) : ∃ e, escapeOf ch = '\\' :: e ∧ IsEscape ch e := by
  have hvalid : ch.toNat < 16 ^ 8 := by
    rcases ch.valid with h | h
    · exact h.trans (by decide)
    · exact h.2.trans (by decide)
  unfold escapeOf
  dsimp only
  split
  · next e n heq =>
    have hmem := List.mem_of_find?_eq_some heq
    have hcode := List.find?_some heq
    rw [Bool.and_eq_true, beq_iff_eq] at hcode
    refine ⟨[e], rfl, isEscape_short ?_⟩
    rw [← hcode.1]
    exact hmem
  · split_ifs
    · exact ⟨_, rfl, isEscape_hex (by decide) (by omega) (by decide) fun _ => rfl⟩
    · exact ⟨_, rfl, isEscape_hex (by decide) (by omega) (by decide) fun _ => rfl⟩
    · exact ⟨_, rfl, isEscape_hex (by decide) hvalid (by decide) fun _ => rfl⟩

/-- How a character is written in double quotes. -/
def doublePiece (ch : Char) : List Char :=
  if !isPrintable ch || isBreak ch || ch == '"' || ch == '\\' then escapeOf ch else [ch]

lemma isPiece_double (h : ch ≠ ' ') : IsPiece true ch (doublePiece ch) := by
  unfold doublePiece
  split_ifs with hescape
  · obtain ⟨e, hpiece, he⟩ := escapeOf_spec ch
    rw [hpiece]
    refine ⟨?_, ?_, '\\', e, rfl, rfl⟩
    · intro fuel acc rest c hc
      obtain ⟨d, e, rfl⟩ := List.exists_cons_of_ne_nil he.ne_nil
      have hread := he.read rest
      have hbreak := (he.inline d List.mem_cons_self).1
      have hslash : isWhite '\\' = false ∧ isBreak '\\' = false := by decide
      rw [quotedWord, hc]
      simp only [List.cons_append] at hread ⊢
      simp [hread, hbreak, hslash]
    · intro d hd
      rcases List.mem_cons.mp hd with rfl | hd
      · rfl
      · exact (he.inline d hd).1
  · simp only [Bool.or_eq_true, Bool.not_eq_true', beq_iff_eq, not_or, Bool.not_eq_false] at hescape
    obtain ⟨⟨⟨hprint, hbreak⟩, hquote⟩, hslash⟩ := hescape
    have hwhite : isWhite ch = false := by
      cases hw : isWhite ch with
      | false => rfl
      | true => exact absurd (not_white_of_isPrintable hprint hw) h
    rw [Bool.not_eq_true] at hbreak
    refine ⟨fun hc => ?_, by simpa using hbreak, ch, [], rfl, hwhite⟩
    rw [quotedWord, hc]
    simp [hwhite, hbreak, hquote, hslash]

lemma quoting_double (text : List Char) : Quoting true doublePiece (fun _ => false) text where
  space := by decide
  separator _ _ h := by cases h
  piece _ _ h _ := isPiece_double h
  gap _ _ _ _ _ := by simp

/-- **Double quotes.** -/
theorem quoted_doubleQuoted (hc : c.rest = doubleQuoted text ++ '\n' :: next) :
    ∃ c', quoted true c = some (text, c') ∧ c'.rest = '\n' :: next := by
  have hinline : ∀ d ∈ text.flatMap doublePiece, isBreak d = false := by
    intro d hd
    obtain ⟨e, he, hd⟩ := List.mem_flatMap.mp hd
    exact (quoting_double text).inline he rfl d hd
  have hwritten := indented_word 2 [] hinline
  rw [List.append_nil, indented, List.append_nil] at hwritten
  apply (quoting_double text).quoted_eq (by simp)
  have hdouble : doubleQuoted text = '"' :: text.flatMap doublePiece ++ ['"'] := rfl
  rw [hc, quotedRest, hwritten, hdouble]
  simp [quoteOf]

end Arbor.Document
