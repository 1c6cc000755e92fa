import Arbor.Proofs.Text.Escape

/-!
# Escaped texts are read back

`unescape` reads the two-character escapes from left to right and takes every other character as it
is.  It reads a text back that was escaped (`unescape_escape`), so no two texts are escaped alike.
Line feeds, carriage returns and tabs are gone from an escaped text, and each quote in it is one of
the text, behind the backslash that was written for it: what is in front of that backslash is a
whole escaped text itself (`exists_of_escape_eq_append`), so the backslash cannot belong to an
escape before it.
-/

namespace Arbor.Text

/-- What a character stands for behind a backslash, if it is one of the five. -/
def escapedBy : Char → Option Char
  | '\\' => some '\\'
  | '"' => some '"'
  | 'n' => some '\n'
  | 'r' => some '\r'
  | 't' => some '\t'
  | _ => none

/-- A text with its escapes read from left to right.  A backslash that starts no escape stands for
itself. -/
def unescape : List Char → List Char
  | '\\' :: c :: rest =>
    match escapedBy c with
    | some d => d :: unescape rest
    | none => '\\' :: unescape (c :: rest)
  | c :: rest => c :: unescape rest
  | [] => []

lemma unescape_cons_of_ne {c : Char} (hc : c ≠ '\\') (rest : List Char) :
    unescape (c :: rest) = c :: unescape rest := by
  rw [unescape]
  intro d rest' hslash
  exact absurd hslash hc

lemma unescape_slash {e c : Char} (h : escapedBy e = some c) (rest : List Char) :
    unescape ('\\' :: e :: rest) = c :: unescape rest := by
  rw [unescape, h]

/-- A character is written by one of the five escapes, or as itself. -/
lemma escaped_eq (c : Char) : (∃ e, escapedBy e = some c ∧ escaped c = ['\\', e]) ∨
    (c ∉ ['\\', '"', '\n', '\r', '\t'] ∧ escaped c = [c]) := by
  unfold escaped
  split_ifs with hslash hquote hfeed hreturn htab
  · exact .inl ⟨'\\', by rw [hslash]; rfl, rfl⟩
  · exact .inl ⟨'"', by rw [hquote]; rfl, rfl⟩
  · exact .inl ⟨'n', by rw [hfeed]; rfl, rfl⟩
  · exact .inl ⟨'r', by rw [hreturn]; rfl, rfl⟩
  · exact .inl ⟨'t', by rw [htab]; rfl, rfl⟩
  · exact .inr ⟨by simp [hslash, hquote, hfeed, hreturn, htab], rfl⟩

lemma unescape_escaped_append (c : Char) (rest : List Char) :
    unescape (escaped c ++ rest) = c :: unescape rest := by
  rcases escaped_eq c with ⟨e, he, hwritten⟩ | ⟨hplain, hwritten⟩
  · rw [hwritten]
    exact unescape_slash he rest
  · have hslash : c ≠ '\\' := fun h => hplain (by simp [h])
    rw [hwritten]
    exact unescape_cons_of_ne hslash rest

lemma escape_cons (c : Char) (text : List Char) :
    escape (c :: text) = escaped c ++ escape text := by
  rw [escape_eq_flatMap, escape_eq_flatMap, List.flatMap_cons]

/-- Escaping loses nothing. -/
theorem unescape_escape (text : List Char) : unescape (escape text) = text := by
  induction text with
  | nil => rfl
  | cons c text ih => rw [escape_cons, unescape_escaped_append, ih]

/-- The line feeds, the carriage returns and the tabs of a text are not left in it. -/
lemma not_mem_escape {c : Char} (hc : c ∈ ['\n', '\r', '\t']) (text : List Char) :
    c ∉ escape text := by
  -- such a character is neither a backslash nor what stands behind one
  have hletter : c ≠ '\\' ∧ escapedBy c = none := by
    simp only [List.mem_cons, List.not_mem_nil, or_false] at hc
    rcases hc with rfl | rfl | rfl <;> exact ⟨by decide, rfl⟩
  have hlisted : c ∈ ['\\', '"', '\n', '\r', '\t'] := by
    simp only [List.mem_cons] at hc ⊢
    tauto
  rw [escape_eq_flatMap, List.mem_flatMap]
  rintro ⟨d, -, hmem⟩
  rcases escaped_eq d with ⟨e, he, hwritten⟩ | ⟨hplain, hwritten⟩
  · rw [hwritten, List.mem_pair] at hmem
    rcases hmem with hslash | rfl
    · exact hletter.1 hslash
    · rw [hletter.2] at he
      cases he
  · rw [hwritten, List.mem_singleton] at hmem
    exact hplain (hmem ▸ hlisted)

/-- **Quotes are guarded.**  A quote in an escaped text comes from a quote of the text, and the
backslash before it is the one that was written for this quote. -/
theorem exists_of_escape_eq_append {text before after : List Char}
    (h : escape text = before ++ '"' :: after) :
    ∃ a b, text = a ++ '"' :: b ∧ before = escape a ++ ['\\'] ∧ after = escape b := by
  induction text generalizing before with
  | nil => simp [escape, replace] at h
  | cons c text ih =>
    -- The quote is behind what is written for `c`, where the hypothesis applies, or it is `c`.
    have hbehind : ∀ {before'}, before = escaped c ++ before' →
        escape text = before' ++ '"' :: after →
          ∃ a b, c :: text = a ++ '"' :: b ∧ before = escape a ++ ['\\'] ∧ after = escape b := by
      intro before' hbefore hrest
      obtain ⟨a, b, rfl, rfl, rfl⟩ := ih hrest
      refine ⟨c :: a, b, rfl, ?_, rfl⟩
      rw [hbefore, escape_cons, List.append_assoc]
    rw [escape_cons] at h
    rcases escaped_eq c with ⟨e, he, hwritten⟩ | ⟨hplain, hwritten⟩
    · rw [hwritten] at h
      cases before with
      | nil => cases (List.cons.inj h).1
      | cons slash before =>
        obtain ⟨rfl, htail⟩ := List.cons.inj h
        cases before with
        | nil =>
          obtain ⟨rfl, rfl⟩ := List.cons.inj htail
          cases he
          exact ⟨[], text, rfl, rfl, rfl⟩
        | cons letter before =>
          obtain ⟨rfl, hrest⟩ := List.cons.inj htail
          exact hbehind (by rw [hwritten]; rfl) hrest
    · rw [hwritten] at h
      cases before with
      | nil =>
        obtain ⟨rfl, -⟩ := List.cons.inj h
        exact absurd (by decide) hplain
      | cons d before =>
        obtain ⟨rfl, hrest⟩ := List.cons.inj h
        exact hbehind (by rw [hwritten]; rfl) hrest

/-- **Escaping is lossless.**  The five replacements one after another are one pass from left to
right.  What they make of a text has no line feed, carriage return or tab, and no quote without a
backslash of its own in front; reading its escapes from left to right gives the text back, so two
texts that are escaped alike are equal. -/
theorem escape_lossless :
    (∀ text, escape text = text.flatMap escaped) ∧
      (∀ text, '\n' ∉ escape text ∧ '\r' ∉ escape text ∧ '\t' ∉ escape text ∧
        ∀ before after, escape text = before ++ '"' :: after →
          ∃ a b, text = a ++ '"' :: b ∧ before = escape a ++ ['\\'] ∧ after = escape b) ∧
      (∀ text, unescape (escape text) = text) ∧ Function.Injective escape := by
  refine ⟨escape_eq_flatMap, fun text => ⟨?_, ?_, ?_, ?_⟩, unescape_escape, ?_⟩
  · exact not_mem_escape (by decide) text
  · exact not_mem_escape (by decide) text
  · exact not_mem_escape (by decide) text
  · exact fun before after => exists_of_escape_eq_append
  · exact Function.LeftInverse.injective unescape_escape

end Arbor.Text
