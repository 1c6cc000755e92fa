import Arbor.Proofs.Text.Json
import Arbor.Text.Escape

/-!
# Escaped texts as JSON strings

The replacements one after another are one pass over the text, in which each character is written
on its own (`escape_eq_flatMap`).  An escaped text is the inside of a JSON string exactly if its
control characters are among the three that are escaped: then it stands for the text
(`quoted_escape`), and otherwise a scanner refuses it (`scan_escape_of_mem`).
-/

namespace Arbor.Text

open Json

/-- How a character is written inside of quotes. -/
def escaped (c : Char) : List Char :=
  if c = '\\' then ['\\', '\\']
  else if c = '"' then ['\\', '"']
  else if c = '\n' then ['\\', 'n']
  else if c = '\r' then ['\\', 'r']
  else if c = '\t' then ['\\', 't']
  else [c]

lemma replace_flatMap (c : Char) (new : List Char) (f : Char → List Char) (text : List Char) :
    replace c new (text.flatMap f) = text.flatMap fun d => replace c new (f d) :=
  List.flatMap_assoc

/-- No replacement touches what an earlier one has put in. -/
theorem escape_eq_flatMap (text : List Char) : escape text = text.flatMap escaped := by
  have hpass : escape text = text.flatMap fun d => replace '\t' ['\\', 't'] <|
      replace '\r' ['\\', 'r'] <| replace '\n' ['\\', 'n'] <| replace '"' ['\\', '"'] <|
        if d = '\\' then ['\\', '\\'] else [d] := by
    have hfirst : replace '\\' ['\\', '\\'] text =
        text.flatMap fun d => if d = '\\' then ['\\', '\\'] else [d] := rfl
    rw [escape, hfirst, replace_flatMap, replace_flatMap, replace_flatMap, replace_flatMap]
  rw [hpass]
  congr 1
  funext d
  unfold escaped
  split_ifs with hslash hquote hfeed hreturn htab
  · rfl
  · subst hquote
    rfl
  · subst hfeed
    rfl
  · subst hreturn
    rfl
  · subst htab
    rfl
  · simp [replace, hquote, hfeed, hreturn, htab]

/-- A control character is covered if it is one of those that are escaped. -/
def Covered (c : Char) : Prop := 0x20 ≤ c.toNat ∨ c ∈ ['\n', '\r', '\t']

instance : DecidablePred Covered := fun c =>
  inferInstanceAs (Decidable (0x20 ≤ c.toNat ∨ c ∈ ['\n', '\r', '\t']))

/-- A character is written by a short escape or as itself. -/
lemma escaped_cases (c : Char) :
    (∃ e, (e, c) ∈ shortEscapes ∧ Covered c ∧ escaped c = ['\\', e]) ∨
      (c ≠ '"' ∧ c ≠ '\\' ∧ (Covered c → 0x20 ≤ c.toNat) ∧ escaped c = [c]) := by
  unfold escaped
  split_ifs with hslash hquote hfeed hreturn htab
  · subst hslash
    exact .inl ⟨_, by decide, by decide, rfl⟩
  · subst hquote
    exact .inl ⟨_, by decide, by decide, rfl⟩
  · subst hfeed
    exact .inl ⟨_, by decide, by decide, rfl⟩
  · subst hreturn
    exact .inl ⟨_, by decide, by decide, rfl⟩
  · subst htab
    exact .inl ⟨_, by decide, by decide, rfl⟩
  · refine .inr ⟨hquote, hslash, ?_, rfl⟩
    rintro (hspace | hlisted)
    · exact hspace
    · simp [hfeed, hreturn, htab] at hlisted

/-- An escaped text between quotes stands for the text. -/
theorem quoted_escape {text : List Char} (h : ∀ c ∈ text, Covered c) :
    Quoted (escape text) (utf16 text) := by
  rw [escape_eq_flatMap]
  induction text with
  | nil => exact .nil
  | cons c text ih =>
    have hc := h c List.mem_cons_self
    have htail := ih fun d hd => h d (List.mem_cons_of_mem c hd)
    rw [List.flatMap_cons, utf16, List.flatMap_cons]
    rcases escaped_cases c with ⟨e, he, -, hwritten⟩ | ⟨hquote, hslash, hspace, hwritten⟩
    · rw [hwritten]
      exact .short he htail
    · rw [hwritten]
      exact .plain hquote hslash (hspace hc) htail

/-- A control character that is not covered is where a scanner refuses the text. -/
theorem scan_escape_of_mem {text : List Char} {c : Char} (hc : c ∈ text) (h : ¬ Covered c) :
    scan .inside (escape text) = .refused := by
  rw [escape_eq_flatMap]
  induction text with
  | nil => cases hc
  | cons d text ih =>
    rw [List.flatMap_cons, scan_append]
    rcases escaped_cases d with ⟨e, -, hd, hwritten⟩ | ⟨hquote, hslash, -, hwritten⟩
    · have hne : c ≠ d := by
        rintro rfl
        exact h hd
      rw [hwritten]
      exact ih (List.mem_of_ne_of_mem hne hc)
    · rw [hwritten, scan_cons, Mode.next, if_neg hquote, if_neg hslash]
      split_ifs with hspace
      · have hne : c ≠ d := by
          rintro rfl
          exact h (.inl hspace)
        exact ih (List.mem_of_ne_of_mem hne hc)
      · exact scan_refused _

/-! ## Reading back -/

lemma escaped_ne_quote (c : Char) (t u : List Char) : escaped c ++ t ≠ '"' :: u := by
  rcases escaped_cases c with ⟨e, -, -, hwritten⟩ | ⟨hquote, -, -, hwritten⟩
  · rw [hwritten]
    intro h
    exact absurd (List.cons.inj h).1 (by decide)
  · rw [hwritten]
    intro h
    exact hquote (List.cons.inj h).1

lemma escaped_append_injective {c d : Char} {t u : List Char}
    (h : escaped c ++ t = escaped d ++ u) : c = d ∧ t = u := by
  have hletters : ∀ p ∈ shortEscapes, ∀ q ∈ shortEscapes, p.1 = q.1 → p.2 = q.2 := by decide
  rcases escaped_cases c with ⟨e, he, -, hc⟩ | ⟨-, hslash, -, hc⟩ <;>
    rcases escaped_cases d with ⟨e', he', -, hd⟩ | ⟨-, hslash', -, hd⟩ <;>
    rw [hc, hd] at h
  · obtain ⟨hee', htu⟩ := List.cons.inj (List.cons.inj h).2
    exact ⟨hletters _ he _ he' hee', htu⟩
  · exact absurd (List.cons.inj h).1.symm hslash'
  · exact absurd (List.cons.inj h).1 hslash
  · exact List.cons.inj h

/-- An escaped text ends at the first quote that is not escaped. -/
theorem escape_append_injective {a b t u : List Char}
    (h : escape a ++ '"' :: t = escape b ++ '"' :: u) : a = b ∧ t = u := by
  rw [escape_eq_flatMap, escape_eq_flatMap] at h
  induction a generalizing b with
  | nil =>
    cases b with
    | nil => exact ⟨rfl, (List.cons.inj h).2⟩
    | cons d b =>
      rw [List.flatMap_cons, List.append_assoc] at h
      exact absurd h.symm (escaped_ne_quote d _ _)
  | cons c a ih =>
    cases b with
    | nil =>
      rw [List.flatMap_cons, List.append_assoc] at h
      exact absurd h (escaped_ne_quote c _ _)
    | cons d b =>
      rw [List.flatMap_cons, List.append_assoc, List.flatMap_cons, List.append_assoc] at h
      obtain ⟨rfl, htail⟩ := escaped_append_injective h
      obtain ⟨rfl, htu⟩ := ih htail
      exact ⟨rfl, htu⟩

end Arbor.Text
