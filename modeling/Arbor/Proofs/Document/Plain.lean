import Arbor.Proofs.Document.Gaps

/-!
# Plain scalars

A text without line breaks, in which nothing is an indicator where it stands, is read back from a
line that it is written on without quotes (`plain_eq`).  The reader goes from word to word, and
the induction is on what is left of the text.
-/

namespace Arbor.Document

variable {c : Cursor} {text done left word tail acc next : List Char} {k fuel margin : ℕ}

/-! ## Texts without indicators -/

/-- The place of a character between what is before and behind it. -/
lemma mem_places (before after : List Char) (ch : Char) :
    ⟨before.getLast?, ch, after.head?⟩ ∈ places (before ++ ch :: after) := by
  have hzip : ∀ previous : Option Char,
      (ch, before.getLast?.or previous, after.head?) ∈ (before ++ ch :: after).zip
        ((previous :: (before ++ ch :: after).map some).zip
          ((before ++ ch :: after).tail.map some ++ [none])) := by
    induction before with
    | nil =>
      intro previous
      cases after <;> simp
    | cons d before ih =>
      intro previous
      have hmem := ih (some d)
      have hlast : (d :: before).getLast?.or previous = before.getLast?.or (some d) := by
        rw [List.getLast?_cons]
        cases before.getLast? <;> rfl
      rw [hlast]
      cases before with
      | nil => exact List.mem_cons_of_mem _ hmem
      | cons e before => exact List.mem_cons_of_mem _ hmem
  have hmem := hzip none
  rw [Option.or_none] at hmem
  exact List.mem_map.mpr ⟨_, hmem, rfl⟩

/-- A text that reads as itself when it is written without quotes. -/
structure Plain (text : List Char) : Prop where
  ne_nil : text ≠ []
  inline : ∀ ch ∈ text, isBreak ch = false ∧ (isWhite ch = true → ch = ' ')
  head : text.head? ≠ some ' '
  last : text.getLast? ≠ some ' '
  place : ∀ {before ch after}, text = before ++ ch :: after →
    isIndicator ⟨before.getLast?, ch, after.head?⟩ = false

lemma not_white_of_isPrintable {ch : Char} (h : isPrintable ch = true) (hw : isWhite ch = true) :
    ch = ' ' := by
  rw [isWhite, Bool.or_eq_true, beq_iff_eq, beq_iff_eq] at hw
  rcases hw with rfl | rfl
  · rfl
  · revert h
    decide

lemma plain_of_admitsPlain (hne : text ≠ []) (h : admitsPlain text = true) : Plain text := by
  simp only [admitsPlain, admitsSingle, Bool.and_eq_true, List.all_eq_true, Bool.not_eq_true',
    List.any_eq_false] at h
  obtain ⟨⟨⟨⟨⟨⟨⟨hprint, -⟩, hbreak⟩, hhead⟩, hlast⟩, hplaces⟩, -⟩, -⟩ := h
  have hedge : ∀ {o : Option Char}, o.any isEdge = false → o ≠ some ' ' := by
    rintro _ ho rfl
    cases ho
  refine ⟨hne, fun ch hch => ⟨by simpa using hbreak ch hch,
    not_white_of_isPrintable (hprint ch hch)⟩, hedge hhead, hedge hlast, ?_⟩
  rintro before ch after rfl
  simpa using hplaces _ (mem_places _ _ _)

/-- The characters of keys, numbers and truth values. -/
def IsWordChar (ch : Char) : Prop := ch.isAlphanum = true ∨ ch ∈ ['.', '-', '_']

instance : DecidablePred IsWordChar := fun _ => inferInstanceAs (Decidable (_ ∨ _))

lemma IsWordChar.ne {ch d : Char} (h : IsWordChar ch) (hd : ¬ IsWordChar d) : ch ≠ d := by
  rintro rfl
  exact hd h

lemma IsWordChar.not_gap {ch : Char} (h : IsWordChar ch) : isGap (some ch) = false := by
  have hne : ∀ {d : Char}, ¬ IsWordChar d → ch.toNat ≠ d.toNat := fun hd heq =>
    h.ne hd (Char.toNat_inj.mp heq)
  have hzero : ch ≠ '\x00' := h.ne (by decide)
  have hspace : ch ≠ ' ' := h.ne (by decide)
  have htab : ch ≠ '\t' := h.ne (by decide)
  have h₁ : ch.toNat ≠ 0x0A := hne (d := '\n') (by decide)
  have h₂ : ch.toNat ≠ 0x0D := hne (d := '\r') (by decide)
  have h₃ : ch.toNat ≠ 0x85 := hne (d := '\u0085') (by decide)
  have h₄ : ch.toNat ≠ 0x2028 := hne (d := '\u2028') (by decide)
  have h₅ : ch.toNat ≠ 0x2029 := hne (d := '\u2029') (by decide)
  simp [isGap, isWhite, isBreak, hzero, hspace, htab, h₁, h₂, h₃, h₄, h₅]

lemma IsWordChar.inWord {ch : Char} (h : IsWordChar ch) :
    isWhite ch = false ∧ isBreak ch = false := by
  have hnot := h.not_gap
  simp only [isGap, Option.all_some, Bool.or_eq_false_iff] at hnot
  exact hnot.1

lemma toNat_of_isAlphanum {ch : Char} (h : ch.isAlphanum = true) :
    0x20 ≤ ch.toNat ∧ ch.toNat ≤ 0x7E := by
  delta Char.isAlphanum Char.isAlpha Char.isUpper Char.isLower Char.isDigit at h
  simp only [ge_iff_le, Bool.or_eq_true, Bool.and_eq_true, decide_eq_true_eq,
    UInt32.le_iff_toNat_le] at h
  have htoNat : ch.toNat = ch.val.toNat := rfl
  have hends : 'A'.val.toNat = 65 ∧ 'Z'.val.toNat = 90 ∧ 'a'.val.toNat = 97 ∧
      'z'.val.toNat = 122 ∧ '0'.val.toNat = 48 ∧ '9'.val.toNat = 57 := by decide
  omega

lemma IsWordChar.isAllowed {ch : Char} (h : IsWordChar ch) : isAllowed ch = true := by
  rcases h with h | h
  · have hrange := toNat_of_isAlphanum h
    simp [Document.isAllowed, hrange]
  · have hall : ['.', '-', '_'].all Document.isAllowed = true := by decide
    exact List.all_eq_true.mp hall ch h

/-- A word is plain, unless it is a sign alone. -/
lemma plain_of_isWordChar {ch : Char} (h : ∀ d ∈ ch :: text, IsWordChar d)
    (hsign : ch = '-' → text ≠ []) : Plain (ch :: text) := by
  have hgap : ∀ d ∈ ch :: text, isWhite d = false ∧ isBreak d = false := fun d hd => (h d hd).inWord
  have hspace : ¬ IsWordChar ' ' := by decide
  refine ⟨List.cons_ne_nil _ _, fun d hd => ⟨(hgap d hd).2, fun hw => ?_⟩, ?_, ?_, ?_⟩
  · rw [(hgap d hd).1] at hw
    cases hw
  · intro heq
    exact (h ch List.mem_cons_self).ne hspace (Option.some.inj heq)
  · intro heq
    exact (h ' ' (List.mem_of_getLast? heq)).ne hspace rfl
  · intro before d after heq
    have hd : IsWordChar d := h d (heq ▸ List.mem_append_right _ List.mem_cons_self)
    have hcolon : d ≠ ':' := hd.ne (by decide)
    have hhash : d ≠ '#' := hd.ne (by decide)
    have hquestion : d ≠ '?' := hd.ne (by decide)
    have hfirst : "#,[]\x7b\x7d&*!|>'\"%@`".toList.contains d = false := by
      rw [List.contains_eq_mem, decide_eq_false_iff_not]
      intro hmem
      have hall : "#,[]\x7b\x7d&*!|>'\"%@`".toList.all (fun e => decide ¬ IsWordChar e) =
          true := by decide
      exact of_decide_eq_true (List.all_eq_true.mp hall d hmem) hd
    have hdash : before.getLast?.isNone = true →
        ("?-".toList.contains d && isGap after.head?) = false := by
      intro hnone
      rw [Option.isNone_iff_eq_none, List.getLast?_eq_none_iff] at hnone
      subst hnone
      obtain ⟨rfl, rfl⟩ : ch = d ∧ text = after := List.cons.inj heq
      rw [Bool.and_eq_false_iff]
      by_cases hch : ch = '-'
      · obtain ⟨e, after, rfl⟩ := List.exists_cons_of_ne_nil (hsign hch)
        exact .inr (h e (by simp)).not_gap
      · exact .inl (by simp [hquestion, hch])
    rw [isIndicator, beq_false_of_ne hcolon, beq_false_of_ne hhash, hfirst, Bool.false_or,
      Bool.false_and, Bool.false_and, Bool.or_false, Bool.or_false, Bool.and_eq_false_iff]
    cases hnone : before.getLast?.isNone with
    | false => exact .inl rfl
    | true => exact .inr (hdash hnone)

/-! ## Reading words -/

/-- A word is read up to white space, to a line break or to a colon with nothing behind it. -/
lemma plainWord_eq (fuel : ℕ) (acc : List Char) (hc : c.rest = word ++ tail)
    (hword : ∀ ch ∈ word, isWhite ch = false ∧ isBreak ch = false)
    (hcolon : ∀ before after, word = before ++ ':' :: after → endsWord (after ++ tail) = false)
    (htail : ∀ ch ∈ tail.head?, isWhite ch = true ∨ isBreak ch = true ∨
      ch = ':' ∧ endsWord tail.tail = true)
    (hfuel : word.length < fuel) :
    Scalar.plainWord false fuel acc c = some (word.reverse ++ acc, c.skip word.length) := by
  induction word generalizing fuel acc c with
  | nil =>
    obtain ⟨fuel, rfl⟩ : ∃ m, fuel = m + 1 := ⟨fuel - 1, by omega⟩
    rw [List.nil_append] at hc
    unfold Scalar.plainWord
    rw [List.length_nil, Cursor.skip_zero, hc]
    cases tail with
    | nil => rfl
    | cons ch tail =>
      rcases htail ch rfl with h | h | ⟨rfl, h⟩
      · simp [h]
      · simp [h]
      · have hcolon : endsWord tail = true := h
        simp [Scalar.plainEnds, hcolon]
  | cons ch word ih =>
    obtain ⟨fuel, rfl⟩ : ∃ m, fuel = m + 1 := ⟨fuel - 1, by omega⟩
    obtain ⟨hwhite, hbreak⟩ := hword ch List.mem_cons_self
    have hends : Scalar.plainEnds false (ch :: (word ++ tail)) = false := by
      rw [Scalar.plainEnds, Bool.false_and, Bool.or_false, Bool.and_eq_false_iff]
      by_cases hch : ch = ':'
      · subst hch
        exact .inr (hcolon [] _ rfl)
      · exact .inl (beq_false_of_ne hch)
    have hrest : (c.skip 1).rest = word ++ tail := by
      rw [Cursor.rest_skip, hc]
      rfl
    have hih := ih fuel (ch :: acc) hrest
      (fun d hd => hword d (List.mem_cons_of_mem _ hd))
      (fun before after h => hcolon (ch :: before) after (by rw [h]; rfl)) (by simpa using hfuel)
    unfold Scalar.plainWord
    rw [hc, List.cons_append]
    simp only [hwhite, hbreak, hends, hih]
    simp [Cursor.skip_skip, Nat.add_comm]

/-- One word and the gap behind it. -/
lemma plainFrom_word {c₁ c₂ : Cursor} {g g' : Scalar.Gap} (hmarker : c.atMarker = false)
    (hsign : c.at? (· == '#') = false) (hne : word ≠ [])
    (hread : Scalar.plainWord false (c.left + 1) [] c = some (word.reverse, c₁))
    (hat : c₁.at? (fun ch => isWhite ch || isBreak ch) = true)
    (hgap : Scalar.gapAt margin false c₁ = some (g', c₂)) :
    Scalar.plainFrom false margin (fuel + 1) acc g c =
      if c₂.column < margin then some ⟨acc.reverse ++ (g.text ++ word), g'.broken, c₂⟩
      else Scalar.plainFrom false margin fuel (word.reverse ++ (g.text.reverse ++ acc)) g' c₂ := by
  rw [Scalar.plainFrom, hmarker, hsign, hread]
  simp [hne, hat, hgap]

namespace Plain

variable (h : Plain text)

include h

lemma atWord {before after : List Char} {ch : Char} (heq : text = before ++ ch :: after)
    (hch : ch ≠ ' ') : isWhite ch = false ∧ isBreak ch = false := by
  obtain ⟨hbreak, hwhite⟩ := h.inline ch (heq ▸ List.mem_append_right _ List.mem_cons_self)
  refine ⟨?_, hbreak⟩
  cases hw : isWhite ch with
  | false => rfl
  | true => exact absurd (hwhite hw) hch

/-- A colon of a plain text has something behind it. -/
lemma colon_not_last {before after tail : List Char} (heq : text = before ++ ':' :: after) :
    endsWord (after ++ tail) = false := by
  have hplace := h.place heq
  cases after with
  | nil => simp [isIndicator, isGap] at hplace
  | cons ch after =>
    have hgap : isGap (some ch) = false := by
      simp only [isIndicator, Bool.or_eq_false_iff] at hplace
      simpa using hplace.1.2
    simp only [isGap, Option.all_some, Bool.or_eq_false_iff] at hgap
    rw [List.cons_append, endsWord, hgap.1.1, hgap.1.2]
    rfl

/-- No word of a plain text starts with a number sign. -/
lemma ne_numberSign {before after : List Char} {ch : Char} (heq : text = before ++ ch :: after)
    (hbefore : ∀ d ∈ before.getLast?, d = ' ') : ch ≠ '#' := by
  rintro rfl
  have hplace := h.place heq
  have hgap : isGap before.getLast? = true := by
    cases hlast : before.getLast? with
    | none => rfl
    | some d =>
      rw [hbefore d hlast]
      rfl
  simp [isIndicator, hgap] at hplace

/-- A word of a plain text is read up to the space or the break behind it. -/
lemma plainWord_word (word : List Char) {after : List Char} (htext : text = done ++ (word ++ after))
    (hword : ∀ d ∈ word, d ≠ ' ') (hafter : ∀ d ∈ after.head?, d = ' ')
    (hc : c.rest = word ++ (after ++ '\n' :: tail)) :
    Scalar.plainWord false (c.left + 1) [] c = some (word.reverse, c.skip word.length) := by
  have hsplit : ∀ {before after' d}, word = before ++ d :: after' →
      text = done ++ before ++ d :: (after' ++ after) := by
    rintro before after' d rfl
    rw [htext]
    simp
  rw [← List.append_nil word.reverse]
  refine plainWord_eq _ [] hc ?_ ?_ ?_ ?_
  · intro d hd
    obtain ⟨before, after', heq⟩ := List.append_of_mem hd
    exact h.atWord (hsplit heq) (hword d hd)
  · intro before after' heq
    rw [← List.append_assoc]
    exact h.colon_not_last (hsplit heq)
  · intro d hd
    cases after with
    | nil =>
      cases hd
      exact .inr (.inl rfl)
    | cons e after =>
      cases hd
      rw [hafter d rfl]
      exact .inl rfl
  · rw [c.left_eq, hc, List.length_append]
    omega

/-- One word of a plain text, from a place behind a space, and the gap behind the word. -/
lemma plainFrom_step {after : List Char} {ch : Char} {g g' : Scalar.Gap} {c₂ : Cursor}
    (htext : text = done ++ (ch :: word ++ after)) (hdone : ∀ d ∈ done.getLast?, d = ' ')
    (hword : ∀ d ∈ ch :: word, d ≠ ' ') (hafter : ∀ d ∈ after.head?, d = ' ')
    (hc : c.rest = ch :: word ++ (after ++ '\n' :: tail)) (hcolumn : 0 < c.column)
    (hgap : Scalar.gapAt margin false (c.skip (ch :: word).length) = some (g', c₂)) :
    Scalar.plainFrom false margin (fuel + 1) acc g c =
      if c₂.column < margin then some ⟨acc.reverse ++ (g.text ++ ch :: word), g'.broken, c₂⟩
      else Scalar.plainFrom false margin fuel ((ch :: word).reverse ++ (g.text.reverse ++ acc)) g'
        c₂ := by
  have hsign : c.at? (· == '#') = false := by
    rw [Cursor.at?_cons hc]
    exact beq_false_of_ne (h.ne_numberSign htext hdone)
  have hrest := Cursor.rest_skip_append hc
  have hat : (c.skip (ch :: word).length).at? (fun ch => isWhite ch || isBreak ch) = true := by
    cases after with
    | nil =>
      rw [Cursor.at?_cons hrest]
      rfl
    | cons d after =>
      rw [Cursor.at?_cons hrest, hafter d rfl]
      rfl
  exact plainFrom_word (Cursor.atMarker_eq_false hcolumn) hsign (List.cons_ne_nil _ _)
    (h.plainWord_word _ htext hword hafter hc) hat hgap

/-- Behind the spaces of a plain text is a word, since it does not end with a space. -/
lemma exists_spaces {before after : List Char} (heq : text = before ++ ' ' :: after) :
    ∃ n e left, ' ' :: after = List.replicate (n + 1) ' ' ++ e :: left ∧ e ≠ ' ' ∧
      ∀ tail, AtWord (e :: left ++ tail) := by
  obtain ⟨spaces, left, rfl, hspaces, hleft⟩ :=
    exists_span_cons (fun d => d == ' ') (beq_self_eq_true ' ') after
  have hspace : ∀ d ∈ ' ' :: spaces, d = ' ' := fun d hd => by simpa using hspaces d hd
  have hreplicate : ' ' :: spaces = List.replicate (spaces.length + 1) ' ' :=
    List.eq_replicate_of_mem hspace
  cases left with
  | nil =>
    refine absurd ?_ h.last
    rw [heq, List.append_nil, List.getLast?_append, hreplicate, List.getLast?_replicate]
    rfl
  | cons e left =>
    have he : e ≠ ' ' := by simpa using hleft e rfl
    have htext : text = before ++ ' ' :: spaces ++ e :: left := by
      rw [heq]
      simp
    obtain ⟨hwhite, hbreak⟩ := h.atWord htext he
    refine ⟨spaces.length, e, left, ?_, he, fun tail => atWord_cons hwhite hbreak⟩
    rw [← hreplicate]
    rfl

/-- From a word on, the reader takes all that is left of the text, and the break behind it. -/
lemma plainFrom_eq (acc : List Char) (g : Scalar.Gap) {ch : Char}
    (htext : text = done ++ ch :: left) (hdone : ∀ d ∈ done.getLast?, d = ' ') (hch : ch ≠ ' ')
    (hc : c.rest = ch :: left ++ '\n' :: (List.replicate k ' ' ++ next)) (hnext : AtWord next)
    (hk : k < margin) (hmargin : margin ≤ c.column) (hfuel : left.length < fuel) :
    ∃ c', Scalar.plainFrom false margin fuel acc g c =
      some ⟨acc.reverse ++ (g.text ++ ch :: left), true, c'⟩ ∧ c'.rest = next ∧ c'.column = k := by
  induction fuel generalizing done ch left acc g c with
  | zero => omega
  | succ fuel ih =>
    obtain ⟨word, after, rfl, hword, hafter⟩ := exists_span (fun d => d != ' ') left
    have hspace : ∀ d ∈ after.head?, d = ' ' := fun d hd => by simpa using hafter d hd
    have hnospace : ∀ d ∈ ch :: word, d ≠ ' ' :=
      List.forall_mem_cons.mpr ⟨hch, fun d hd => by simpa using hword d hd⟩
    have hc' : c.rest = ch :: word ++ (after ++ '\n' :: (List.replicate k ' ' ++ next)) := by
      rw [hc]
      simp
    have hrest := Cursor.rest_skip_append hc'
    cases after with
    | nil =>
      obtain ⟨c', hbreaks, hnext', hcolumn⟩ := Scalar.gapAt_breaks margin (.inl rfl)
        (List.forall_mem_nil _) hrest hnext
      refine ⟨c', ?_, hnext', hcolumn⟩
      rw [h.plainFrom_step htext hdone hnospace hspace hc' (by omega) hbreaks, if_pos (by omega),
        List.append_nil]
    | cons d after =>
      obtain rfl := hspace d rfl
      have hspaces : text = done ++ ch :: word ++ ' ' :: after := by simp [htext]
      obtain ⟨n, e, left, heq, he, hnextWord⟩ := h.exists_spaces hspaces
      rw [heq, ← List.append_assoc] at hspaces
      have hbehind : (c.skip (ch :: word).length).rest = List.replicate (n + 1) ' ' ++
          (e :: left ++ '\n' :: (List.replicate k ' ' ++ next)) := by
        rw [hrest, heq, List.append_assoc]
      have hgap := Scalar.gapAt_spaces margin hbehind (hnextWord _)
      have hcolumn : margin ≤ ((c.skip (ch :: word).length).skip (n + 1)).column := by
        rw [Cursor.column_skip, Cursor.column_skip]
        omega
      have hlast : ∀ d ∈ (done ++ ch :: word ++ List.replicate (n + 1) ' ').getLast?, d = ' ' := by
        rw [List.getLast?_append, List.getLast?_replicate]
        rintro d ⟨⟩
        rfl
      have hlength := congrArg List.length heq
      simp only [List.length_append, List.length_cons, List.length_replicate] at hlength hfuel
      obtain ⟨c', hplain, hrest', hcolumn'⟩ := ih ((ch :: word).reverse ++ (g.text.reverse ++ acc))
        ⟨List.replicate (n + 1) ' ', false, [], []⟩ hspaces hlast he
        (Cursor.rest_skip_spaces hbehind) hcolumn (by omega)
      refine ⟨c', ?_, hrest', hcolumn'⟩
      rw [h.plainFrom_step htext hdone hnospace hspace hc' (by omega) hgap,
        if_neg (not_lt.mpr hcolumn), hplain, heq]
      simp [Scalar.Gap.text]

/-- **Plain scalars.**  A plain text is read back up to the next line, which is indented less than
the text has to be. -/
theorem plain_eq (hc : c.rest = text ++ '\n' :: (List.replicate k ' ' ++ next))
    (hnext : AtWord next) (hk : k < margin) (hmargin : margin ≤ c.column) :
    ∃ c', Scalar.plain false margin c = some ⟨text, true, c'⟩ ∧ c'.rest = next ∧ c'.column = k := by
  obtain ⟨ch, left, rfl⟩ := List.exists_cons_of_ne_nil h.ne_nil
  have hch : ch ≠ ' ' := fun heq => h.head (by rw [heq]; rfl)
  have hfuel : left.length < c.left + 1 := by
    rw [c.left_eq, hc]
    simp
    omega
  unfold Scalar.plain
  exact h.plainFrom_eq [] ⟨[], false, [], []⟩ (List.nil_append _).symm (by simp) hch hc hnext hk
    hmargin hfuel

end Plain

/-! ## Keys -/

/-- A word that may be a key: it starts with a letter and is not too long. -/
structure IsKey (key : List Char) : Prop where
  ne_nil : key ≠ []
  chars : ∀ ch ∈ key, IsWordChar ch
  head : ∀ ch ∈ key.head?, ch.isAlpha = true
  length_le : key.length ≤ 1024

instance : DecidablePred IsKey := fun key =>
  decidable_of_iff (key ≠ [] ∧ key.all (fun ch => decide (IsWordChar ch)) = true ∧
    key.head?.all Char.isAlpha = true ∧ key.length ≤ 1024)
    ⟨fun ⟨hne, hchars, hhead, hlength⟩ =>
      ⟨hne, by simpa using hchars, by simpa [Option.all_eq_true] using hhead, hlength⟩,
      fun ⟨hne, hchars, hhead, hlength⟩ =>
        ⟨hne, by simpa using hchars, by simpa [Option.all_eq_true] using hhead, hlength⟩⟩

lemma IsKey.atMarker_eq_false {key : List Char} (h : IsKey key) (hc : c.rest = key ++ tail) :
    c.atMarker = false := by
  obtain ⟨ch, key, rfl⟩ := List.exists_cons_of_ne_nil h.ne_nil
  have hne : ∀ {d : Char}, d.isAlpha = false → ch ≠ d := by
    rintro d hd rfl
    rw [h.head ch rfl] at hd
    cases hd
  have hdash : ch ≠ '-' := hne (by decide)
  have hpoint : ch ≠ '.' := hne (by decide)
  simp [Cursor.atMarker, hc, hdash, hpoint]

/-- A key is read up to its colon. -/
lemma plain_key {key : List Char} (h : IsKey key) (hc : c.rest = key ++ ':' :: tail)
    (htail : endsWord tail = true) :
    Scalar.plain false margin c = some ⟨key, false, c.skip key.length⟩ := by
  obtain ⟨ch, key, rfl⟩ := List.exists_cons_of_ne_nil h.ne_nil
  have hmarker := h.atMarker_eq_false hc
  have hsign : c.at? (· == '#') = false := by
    rw [Cursor.at?_cons hc]
    apply beq_false_of_ne
    rintro rfl
    cases h.head '#' rfl
  have hcolon : (c.skip (ch :: key).length).at? (fun ch => isWhite ch || isBreak ch) = false := by
    rw [Cursor.at?_cons (Cursor.rest_skip_append hc)]
    rfl
  have hread := plainWord_eq (c.left + 1) [] hc (fun d hd => (h.chars d hd).inWord)
    (fun before after heq => absurd (h.chars ':' (by rw [heq]; simp)) (by decide))
    (fun d hd => by cases hd; exact .inr (.inr ⟨rfl, htail⟩)) (by
      rw [c.left_eq, hc, List.length_append]
      omega)
  rw [Scalar.plain, Scalar.plainFrom, hmarker, hsign, hread]
  simp only [Bool.or_false, Bool.false_eq_true, if_false, Option.bind_eq_bind, Option.bind_some,
    hcolon]
  simp [Scalar.Gap.text]

end Arbor.Document
