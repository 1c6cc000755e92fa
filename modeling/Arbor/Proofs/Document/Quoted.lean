import Mathlib.Data.Nat.Digits.Defs
import Arbor.Proofs.Document.Plain

/-!
# Quoted scalars

A text in single or double quotes is written character by character, each as one piece that the
reader takes in one step (`IsPiece`).  Between the words of the text are spaces, and in single
quotes also line breaks with the indentation that the writer puts behind them.  One induction over
the text serves both kinds of quotes (`Quoting.quoted_eq`).
-/

namespace Arbor.Document

open Scalar

variable {c : Cursor} {text left word tail acc piece rest : List Char} {fuel : ℕ} {double : Bool}
  {ch : Char}

/-! ## Indentation behind line breaks -/

section Indented

variable {n : ℕ} {broken : Bool}

lemma indented_word (n : ℕ) (rest : List Char) (h : ∀ d ∈ word, isBreak d = false) :
    indented n false (word ++ rest) = word ++ indented n false rest := by
  induction word with
  | nil => rfl
  | cons d word ih =>
    rw [List.cons_append, indented, h d List.mem_cons_self,
      ih fun e he => h e (List.mem_cons_of_mem _ he)]
    rfl

lemma indented_breaks (h : ∀ d ∈ word, isBreak d = true) (hne : word ≠ []) :
    indented n broken (word ++ rest) = word ++ indented n true rest := by
  induction word generalizing broken with
  | nil => exact absurd rfl hne
  | cons d word ih =>
    rw [List.cons_append, indented, h d List.mem_cons_self, if_pos rfl, List.cons_append]
    cases word with
    | nil => rfl
    | cons e word => rw [ih (fun f hf => h f (List.mem_cons_of_mem _ hf)) (List.cons_ne_nil _ _)]

lemma indented_true (h : ∀ d ∈ text.head?, isBreak d = false) (hne : text ≠ []) :
    indented n true text = List.replicate n ' ' ++ indented n false text := by
  obtain ⟨d, text, rfl⟩ := List.exists_cons_of_ne_nil hne
  have hd := h d rfl
  simp [indented, hd]

lemma length_le_indented (n : ℕ) (broken : Bool) (text : List Char) :
    text.length ≤ (indented n broken text).length := by
  induction text generalizing broken with
  | nil => exact Nat.zero_le _
  | cons d text ih =>
    rw [indented]
    split_ifs
    · exact Nat.succ_le_succ (ih _)
    · rw [List.length_append, List.length_cons, List.length_cons]
      have := ih false
      omega
    · exact Nat.succ_le_succ (ih _)

end Indented

/-! ## Pieces -/

/-- A character that the reader of a quoted word takes in one step. -/
structure IsPiece (double : Bool) (ch : Char) (piece : List Char) : Prop where
  step : ∀ {fuel acc rest} {c : Cursor}, c.rest = piece ++ rest →
    quotedWord double (fuel + 1) acc c = quotedWord double fuel (ch :: acc) (c.skip piece.length)
  inline : ∀ d ∈ piece, isBreak d = false
  head : ∃ d piece', piece = d :: piece' ∧ isWhite d = false

/-- No quoted word goes on here. -/
def Stops (double : Bool) (tail : List Char) : Prop :=
  ∀ {fuel acc} {c : Cursor}, c.rest = tail →
    quotedWord double (fuel + 1) acc c = some (acc, false, c)

lemma stops_gap (h : isWhite ch = true ∨ isBreak ch = true) : Stops double (ch :: tail) := by
  intro fuel acc c hc
  rw [quotedWord, hc]
  rcases h with h | h <;> simp [h]

/-- The closing quote. -/
def quoteOf (double : Bool) : Char := if double then '"' else '\''

lemma stops_quote (h : tail.head? ≠ some '\'') : Stops double (quoteOf double :: tail) := by
  intro fuel acc c hc
  have h' : (tail.head? == some '\'') = false := beq_false_of_ne h
  rw [quotedWord, hc]
  cases double with
  | false => simp [quoteOf, h', isWhite, isBreak]
  | true => simp [quoteOf, isWhite, isBreak]

/-- The pieces of a word are read one after another. -/
lemma quotedWord_eq {enc : Char → List Char} (acc : List Char)
    (hword : ∀ d ∈ word, IsPiece double d (enc d)) (htail : Stops double tail)
    (hc : c.rest = word.flatMap enc ++ tail) (hfuel : word.length < fuel) :
    quotedWord double fuel acc c =
      some (word.reverse ++ acc, false, c.skip (word.flatMap enc).length) := by
  induction word generalizing fuel acc c with
  | nil =>
    obtain ⟨fuel, rfl⟩ : ∃ m, fuel = m + 1 := ⟨fuel - 1, by omega⟩
    rw [htail hc]
    simp
  | cons d word ih =>
    obtain ⟨fuel, rfl⟩ : ∃ m, fuel = m + 1 := ⟨fuel - 1, by omega⟩
    rw [List.flatMap_cons, List.append_assoc] at hc
    rw [(hword d List.mem_cons_self).step hc,
      ih _ (fun e he => hword e (List.mem_cons_of_mem _ he)) (Cursor.rest_skip_append hc)
        (by simpa using hfuel),
      Cursor.skip_skip, List.flatMap_cons, List.length_append]
    simp

lemma length_le_flatMap {enc : Char → List Char} (h : ∀ d ∈ word, enc d ≠ []) :
    word.length ≤ (word.flatMap enc).length := by
  induction word with
  | nil => exact le_rfl
  | cons d word ih =>
    have hpos := List.length_pos_iff.mpr (h d List.mem_cons_self)
    have hle := ih fun e he => h e (List.mem_cons_of_mem _ he)
    rw [List.flatMap_cons, List.length_append, List.length_cons]
    omega

/-- One word, and the quote behind it. -/
lemma quotedFrom_close {c₁ : Cursor} (hcolumn : 0 < c.column) (hne : c.rest ≠ [])
    (hread : quotedWord double (c.left + 1) [] c = some (word.reverse, false, c₁))
    (hrest : c₁.rest = quoteOf double :: tail) :
    quotedFrom double (fuel + 1) acc c = some (acc.reverse ++ word, c₁.skip 1) := by
  have hat : c₁.at? (· == if double then '"' else '\'') = true := by
    rw [Cursor.at?_cons hrest]
    cases double <;> rfl
  rw [quotedFrom, Cursor.atMarker_eq_false hcolumn, List.isEmpty_eq_false_iff.mpr hne, hread]
  simp [hat]

/-- One word, and a gap behind it. -/
lemma quotedFrom_gap {c₁ c₂ : Cursor} {g : Gap} (hcolumn : 0 < c.column) (hne : c.rest ≠ [])
    (hread : quotedWord double (c.left + 1) [] c = some (word.reverse, false, c₁))
    (hrest : ∀ d ∈ c₁.rest.head?, isWhite d = true ∨ isBreak d = true)
    (hgap : gapAt 0 false c₁ = some (g, c₂)) :
    quotedFrom double (fuel + 1) acc c =
      quotedFrom double fuel (g.text.reverse ++ (word.reverse ++ acc)) c₂ := by
  have hat : c₁.at? (· == if double then '"' else '\'') = false := by
    apply Cursor.at?_eq_false
    intro d hd
    have := hrest d hd
    cases double <;> (apply beq_false_of_ne; rintro rfl; revert this; decide)
  rw [quotedFrom, Cursor.atMarker_eq_false hcolumn, List.isEmpty_eq_false_iff.mpr hne, hread]
  simp [hat, hgap]

/-! ## Texts in quotes -/

/-- How a text is written in quotes: the pieces of its characters, and which of these are line
breaks that stand for themselves. -/
structure Quoting (double : Bool) (enc : Char → List Char) (hard : Char → Bool) (text : List Char) :
    Prop where
  space : enc ' ' = [' '] ∧ hard ' ' = false
  separator : ∀ ch ∈ text, hard ch = true → (ch = '\u2028' ∨ ch = '\u2029') ∧ enc ch = [ch]
  piece : ∀ ch ∈ text, ch ≠ ' ' → hard ch = false → IsPiece double ch (enc ch)
  /-- White space beside a line break would be lost. -/
  gap : ∀ before ch ch' after, text = before ++ ch :: ch' :: after →
    ¬ (hard ch = true ∧ ch' = ' ') ∧ ¬ (ch = ' ' ∧ hard ch' = true)

/-- What is left of a text in quotes, with the closing quote. -/
def quotedRest (double : Bool) (enc : Char → List Char) (hard : Char → Bool)
    (left tail : List Char) : List Char :=
  indented 2 false (left.flatMap enc) ++
    ((if left.getLast?.any hard then List.replicate 2 ' ' else []) ++ quoteOf double :: tail)

namespace Quoting

variable {enc : Char → List Char} {hard : Char → Bool} (h : Quoting double enc hard text)

include h

lemma suffix (done : List Char) (htext : text = done ++ left) : Quoting double enc hard left where
  space := h.space
  separator ch hch := h.separator ch (htext ▸ List.mem_append_right _ hch)
  piece ch hch := h.piece ch (htext ▸ List.mem_append_right _ hch)
  gap := fun before ch ch' after heq => h.gap (done ++ before) ch ch' after
    (by rw [htext, heq, List.append_assoc])

lemma inline {d : Char} (hd : d ∈ text) (hhard : hard d = false) :
    ∀ e ∈ enc d, isBreak e = false := by
  by_cases hspace : d = ' '
  · rw [hspace, h.space.1]
    exact List.forall_mem_singleton.mpr rfl
  · exact (h.piece d hd hspace hhard).inline

lemma enc_ne_nil {d : Char} (hd : d ∈ text) : enc d ≠ [] := by
  cases hhard : hard d with
  | true =>
    rw [(h.separator d hd hhard).2]
    exact List.cons_ne_nil _ _
  | false =>
    by_cases hspace : d = ' '
    · rw [hspace, h.space.1]
      exact List.cons_ne_nil _ _
    · obtain ⟨e, piece, hpiece, -⟩ := (h.piece d hd hspace hhard).head
      rw [hpiece]
      exact List.cons_ne_nil _ _

/-- A text that goes on with a word has no white space in front. -/
lemma atWord_quotedRest (hword : ∀ d ∈ text.head?, d ≠ ' ' ∧ hard d = false) :
    AtWord (quotedRest double enc hard text tail) := by
  cases text with
  | nil => cases double <;> exact atWord_cons rfl rfl
  | cons d text =>
    obtain ⟨hspace, hhard⟩ := hword d rfl
    have hpiece := h.piece d List.mem_cons_self hspace hhard
    obtain ⟨e, piece, hpiece', hwhite⟩ := hpiece.head
    rw [quotedRest, List.flatMap_cons, indented_word 2 _ hpiece.inline, hpiece']
    exact atWord_cons hwhite (hpiece.inline e (by rw [hpiece']; simp))

/-- Words and spaces are written one after another. -/
lemma quotedRest_append (htext : text = word ++ left) (hword : ∀ d ∈ word, hard d = false) :
    quotedRest double enc hard text tail =
      word.flatMap enc ++ quotedRest double enc hard left tail := by
  have hinline : ∀ d ∈ word.flatMap enc, isBreak d = false := by
    intro d hd
    obtain ⟨e, he, hd⟩ := List.mem_flatMap.mp hd
    exact h.inline (htext ▸ List.mem_append_left _ he) (hword e he) d hd
  have hlast : text.getLast?.any hard = left.getLast?.any hard := by
    rw [htext, List.getLast?_append]
    cases left.getLast? with
    | some d => rfl
    | none =>
      rw [Option.none_or]
      cases hlast : word.getLast? with
      | none => rfl
      | some d => exact hword d (List.mem_of_getLast? hlast)
  rw [quotedRest, quotedRest, hlast, htext, List.flatMap_append, indented_word 2 _ hinline,
    List.append_assoc]

/-- Behind line breaks is indentation, also in front of the closing quote. -/
lemma quotedRest_breaks (htext : text = word ++ left) (hword : ∀ d ∈ word, hard d = true)
    (hne : word ≠ []) (hleft : ∀ d ∈ left.head?, hard d = false) :
    quotedRest double enc hard text tail =
      word ++ (List.replicate 2 ' ' ++ quotedRest double enc hard left tail) := by
  have hsep := fun d hd => h.separator d (htext ▸ List.mem_append_left _ hd) (hword d hd)
  have henc : word.flatMap enc = word := by
    clear htext hne hword
    induction word with
    | nil => rfl
    | cons d word ih =>
      rw [List.flatMap_cons, (hsep d List.mem_cons_self).2,
        ih fun e he => hsep e (List.mem_cons_of_mem _ he)]
      rfl
  have hbreak : ∀ d ∈ word, isBreak d = true := fun d hd => by
    rcases (hsep d hd).1 with rfl | rfl <;> rfl
  rw [quotedRest, quotedRest, htext, List.flatMap_append, henc, indented_breaks hbreak hne]
  cases left with
  | nil =>
    have hlast : (word ++ []).getLast?.any hard = true := by
      rw [List.append_nil, List.getLast?_eq_some_getLast hne]
      exact hword _ (List.getLast_mem hne)
    rw [hlast]
    simp [indented]
  | cons d left =>
    have hmem : d ∈ text := htext ▸ List.mem_append_right _ List.mem_cons_self
    obtain ⟨e, piece, hpiece⟩ := List.exists_cons_of_ne_nil (h.enc_ne_nil hmem)
    have hhead : ∀ f ∈ ((d :: left).flatMap enc).head?, isBreak f = false := by
      rw [List.flatMap_cons, hpiece]
      rintro f ⟨⟩
      exact h.inline hmem (hleft d rfl) _ (by rw [hpiece]; exact List.mem_cons_self)
    rw [indented_true hhead (by simp [hpiece]), List.getLast?_append, List.getLast?_cons,
      Option.some_or, List.append_assoc, List.append_assoc]

/-- A gap starts with its first character. -/
lemma quotedRest_cons (tail : List Char) {d : Char} (htext : text = d :: left)
    (hd : d = ' ' ∨ hard d = true) : ∃ rest, quotedRest double enc hard text tail = d :: rest := by
  have henc : enc d = [d] := by
    rcases hd with rfl | hd
    · exact h.space.1
    · exact (h.separator d (htext ▸ List.mem_cons_self) hd).2
  rw [quotedRest, htext, List.flatMap_cons, henc, List.singleton_append, indented]
  cases isBreak d <;> exact ⟨_, rfl⟩

/-- What a gap of spaces or line breaks as a whole may have behind it. -/
lemma gap_append {gap : List Char} (htext : text = gap ++ left) (hne : gap ≠ []) :
    ∀ d ∈ left.head?, ¬ (hard (gap.getLast hne) = true ∧ d = ' ') ∧
      ¬ (gap.getLast hne = ' ' ∧ hard d = true) := by
  intro d hd
  cases left with
  | nil => cases hd
  | cons e left =>
    cases hd
    apply h.gap gap.dropLast _ _ left
    rw [htext]
    conv_lhs => rw [← List.dropLast_concat_getLast hne]
    simp

/-- Spaces between words, which are not in front of a line break. -/
lemma gapAt_spaces (htext : text = ' ' :: left)
    (hc : c.rest = quotedRest double enc hard text tail) (hcolumn : 0 < c.column) :
    ∃ gap left g c', text = ' ' :: gap ++ left ∧ gapAt 0 false c = some (g, c') ∧
      g.text = ' ' :: gap ∧ c'.rest = quotedRest double enc hard left tail ∧ 0 < c'.column := by
  obtain ⟨spaces, left', rfl, hspaces, hleft⟩ :=
    exists_span_cons (fun d => d == ' ') (beq_self_eq_true ' ') left
  have hspace : ∀ d ∈ ' ' :: spaces, d = ' ' := fun d hd => by simpa using hspaces d hd
  obtain ⟨k, hk⟩ : ∃ k, ' ' :: spaces = List.replicate k ' ' := ⟨_, List.eq_replicate_of_mem hspace⟩
  have henc : (' ' :: spaces).flatMap enc = List.replicate k ' ' := by
    rw [hk]
    clear hk
    induction k with
    | zero => rfl
    | succ k ih => rw [List.replicate_succ, List.flatMap_cons, h.space.1, ih, List.singleton_append]
  have hword : ∀ d ∈ left'.head?, d ≠ ' ' ∧ hard d = false := by
    intro d hd
    have hnot := (h.gap_append htext (List.cons_ne_nil _ _) d hd).2
    rw [hspace _ (List.getLast_mem _), not_and, Bool.not_eq_true] at hnot
    exact ⟨by simpa using hleft d hd, hnot rfl⟩
  rw [h.quotedRest_append htext fun d hd => by rw [hspace d hd, h.space.2], henc] at hc
  exact ⟨spaces, left', _, _, htext, Scalar.gapAt_spaces 0 hc
    ((h.suffix (' ' :: spaces) htext).atWord_quotedRest hword),
    hk.symm, Cursor.rest_skip_spaces hc, by rw [Cursor.column_skip]; omega⟩

/-- Line breaks between words, which are not in front of a space. -/
lemma gapAt_breaks {d : Char} (htext : text = d :: left) (hd : hard d = true)
    (hc : c.rest = quotedRest double enc hard text tail) :
    ∃ gap left g c', text = d :: gap ++ left ∧ gapAt 0 false c = some (g, c') ∧
      g.text = d :: gap ∧ c'.rest = quotedRest double enc hard left tail ∧ 0 < c'.column := by
  obtain ⟨breaks, left', rfl, hbreaks, hleft⟩ := exists_span_cons hard hd left
  have hword : ∀ d ∈ left'.head?, d ≠ ' ' ∧ hard d = false := by
    intro e he
    have hnot := (h.gap_append htext (List.cons_ne_nil _ _) e he).1
    rw [hbreaks _ (List.getLast_mem _), not_and] at hnot
    exact ⟨hnot rfl, hleft e he⟩
  rw [h.quotedRest_breaks htext hbreaks (List.cons_ne_nil _ _) hleft] at hc
  have hsep : ∀ e ∈ d :: breaks, e = '\u2028' ∨ e = '\u2029' := fun e he =>
    (h.separator e (htext ▸ List.mem_append_left _ he) (hbreaks e he)).1
  obtain ⟨c', hread, hrest, hcolumn⟩ := Scalar.gapAt_breaks 0
    (.inr (hsep d List.mem_cons_self)) (fun e he => .inr (hsep e (List.mem_cons_of_mem _ he))) hc
    ((h.suffix (d :: breaks) htext).atWord_quotedRest hword)
  refine ⟨breaks, left', _, c', htext, hread, ?_, hrest, by omega⟩
  have hfeed : d ≠ '\n' := by
    rcases hsep d List.mem_cons_self with rfl | rfl <;> decide
  simp [Gap.text, hfeed]

/-- What is between two words is a gap, of spaces or of line breaks. -/
lemma gapAt_eq {d : Char} (htext : text = d :: left) (hd : d = ' ' ∨ hard d = true)
    (hc : c.rest = quotedRest double enc hard text tail) (hcolumn : 0 < c.column) :
    ∃ gap left g c', text = d :: gap ++ left ∧ gapAt 0 false c = some (g, c') ∧
      g.text = d :: gap ∧ c'.rest = quotedRest double enc hard left tail ∧ 0 < c'.column := by
  rcases hd with rfl | hd
  · exact h.gapAt_spaces htext hc hcolumn
  · exact h.gapAt_breaks htext hd hc

lemma gap_stops {d : Char} (htext : text = d :: left) (hd : d = ' ' ∨ hard d = true) :
    isWhite d = true ∨ isBreak d = true := by
  rcases hd with rfl | hd
  · exact .inl rfl
  · rcases (h.separator d (htext ▸ List.mem_cons_self) hd).1 with rfl | rfl <;> exact .inr rfl

end Quoting

/-- Word by word, with the gap behind each, the reader takes what is left of the text. -/
lemma quotedFrom_eq (acc : List Char) {enc : Char → List Char} {hard : Char → Bool}
    (h : Quoting double enc hard text) (htail : tail.head? ≠ some '\'')
    (hc : c.rest = quotedRest double enc hard text tail) (hcolumn : 0 < c.column)
    (hfuel : text.length < fuel) :
    ∃ c', quotedFrom double fuel acc c = some (acc.reverse ++ text, c') ∧ c'.rest = tail := by
  induction fuel generalizing text acc c with
  | zero => omega
  | succ fuel ih =>
    obtain ⟨word, left, rfl, hword, hleft⟩ := exists_span (fun d => d != ' ' && !hard d) text
    have hsoft : ∀ d ∈ word, d ≠ ' ' ∧ hard d = false := fun d hd => by simpa using hword d hd
    have hpieces : ∀ d ∈ word, IsPiece double d (enc d) := fun d hd =>
      h.piece d (List.mem_append_left _ hd) (hsoft d hd).1 (hsoft d hd).2
    rw [h.quotedRest_append rfl fun d hd => (hsoft d hd).2] at hc
    have hlength : word.length < c.left + 1 := by
      have hle : word.length ≤ (word.flatMap enc).length :=
        length_le_flatMap fun d hd => h.enc_ne_nil (List.mem_append_left _ hd)
      rw [c.left_eq, hc, List.length_append]
      omega
    have hne : c.rest ≠ [] := by
      rw [hc]
      simp [quotedRest]
    have hrest := Cursor.rest_skip_append hc
    cases left with
    | nil =>
      have hread := quotedWord_eq [] hpieces (stops_quote htail) hc hlength
      rw [List.append_nil] at hread
      refine ⟨_, by rw [quotedFrom_close hcolumn hne hread hrest, List.append_nil], ?_⟩
      rw [Cursor.rest_skip, hrest]
      rfl
    | cons d left =>
      have hd : d = ' ' ∨ hard d = true := by simpa [or_iff_not_imp_left] using hleft d rfl
      have hsuffix := h.suffix word rfl
      have hstop := hsuffix.gap_stops rfl hd
      obtain ⟨gap, left', g, c', heq, hgap, hg, hrest', hcolumn'⟩ :=
        hsuffix.gapAt_eq rfl hd hrest (by rw [Cursor.column_skip]; omega)
      obtain ⟨rest, hcons⟩ := hsuffix.quotedRest_cons tail rfl hd
      rw [hcons] at hc hrest
      have hread := quotedWord_eq [] hpieces (stops_gap hstop) hc hlength
      rw [List.append_nil] at hread
      have hstop' : ∀ e ∈ (c.skip (word.flatMap enc).length).rest.head?,
          isWhite e = true ∨ isBreak e = true := by
        rw [hrest]
        rintro e ⟨⟩
        exact hstop
      have hfuel' : left'.length < fuel := by
        rw [heq] at hfuel
        simp only [List.length_append, List.length_cons] at hfuel
        omega
      obtain ⟨c₂, hrest₂, htail₂⟩ := ih (g.text.reverse ++ (word.reverse ++ acc))
        (hsuffix.suffix (d :: gap) heq) hrest' hcolumn' hfuel'
      refine ⟨c₂, ?_, htail₂⟩
      rw [quotedFrom_gap hcolumn hne hread hstop' hgap, hrest₂, hg, heq]
      simp

/-- **Quoted scalars.**  A text in quotes is read back, whatever the quotes. -/
theorem Quoting.quoted_eq {enc : Char → List Char} {hard : Char → Bool}
    (h : Quoting double enc hard text) (htail : tail.head? ≠ some '\'')
    (hc : c.rest = quoteOf double :: quotedRest double enc hard text tail) :
    ∃ c', quoted double c = some (text, c') ∧ c'.rest = tail := by
  have hrest : (c.skip 1).rest = quotedRest double enc hard text tail := by
    rw [Cursor.rest_skip, hc]
    rfl
  refine quotedFrom_eq [] h htail hrest (Nat.succ_pos _) ?_
  have hindented := length_le_indented 2 false (text.flatMap enc)
  have hpieces : text.length ≤ (text.flatMap enc).length := length_le_flatMap fun d => h.enc_ne_nil
  rw [c.left_eq, hc, quotedRest, List.length_cons, List.length_append]
  omega

end Arbor.Document
